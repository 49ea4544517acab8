import FinLang.Proofs.Machine.Install

namespace FinLang

-- What a host may ask of a machine.
inductive HostCall where
  | run (source : String)
  | openSession
  | runIn (source : String) (scope : ScopeId)
  | closeSession (scope : ScopeId)

namespace Machine

variable {α : Type}

-- The machine behind a call that has returned.
def returned : Except Halt α × Machine → Option Machine
  | (.error .outOfFuel, _) => none
  | (_, m) => some m

-- The machine behind a call, if the fuel lasts.
def after? (m : Machine) (fuel : Nat) : HostCall → Option Machine
  | .run source => returned (m.run fuel (Tree.parse source))
  | .openSession => some m.openSession.2
  | .runIn source scope => returned (m.runIn fuel (Tree.parse source) scope)
  | .closeSession scope => some (m.closeSession scope).2

-- A machine behind some calls, the latest first, each of which has returned.
inductive Reached (config : Config) : List HostCall → Machine → Prop
  | start : Reached config [] (ofConfig config)
  | call {calls : List HostCall} {m m' : Machine} {fuel : Nat} {c : HostCall} :
      Reached config calls m → m.after? fuel c = some m' → Reached config (c :: calls) m'

variable {D : Discipline} {m m' : Machine} {config : Config}

section Calls

variable {A : ScopeId → Prop} {K : VarId → Prop} {fuel : Nat} {source : String}
  {scope : ScopeId} {calls : List HostCall} {c : HostCall}

-- A machine that starts on a part.
abbrev idle (m : Machine) : Run :=
  ⟨m, .start, none⟩

-- How a part ends: unless the fuel runs out the machine is as it should be, and
-- a failure has an admitted cause.
def Ends (Q : Machine → Prop) (C : Cause → Prop) : Except Halt α × Machine → Prop
  | (.ok _, m) => Q m
  | (.error (.failure f), m) => Q m ∧ C f.cause
  | (.error .outOfFuel, _) => True

theorem Ends.returned {Q : Machine → Prop} {C : Cause → Prop} {ended : Except Halt α × Machine}
    (h : Ends Q C ended) (hm : returned ended = some m') : Q m' := by
  rcases ended with ⟨(_ | _) | _, _⟩ <;> cases hm
  · exact h.1
  · exact h

theorem Ends.cause {Q : Machine → Prop} {C : Cause → Prop} {ended : Except Halt α × Machine}
    {f : Failure} (h : Ends Q C ended) (hf : ended.1 = .error (.failure f)) : C f.cause := by
  rcases ended with ⟨(_ | _) | _, _⟩ <;> cases hf
  exact h.2

theorem start_ends {part : Exec α} {Q : Machine → Prop} {C : Cause → Prop}
    (h : Ensures part m.idle (fun _ r => Q r.machine) (fun e r =>
      match e with
      | .failure f => Q r.machine ∧ C f.cause
      | .outOfFuel => True)) : Ends Q C (m.start part) := by
  unfold Ensures at h
  unfold start perform
  rcases hrun : part.run.run m.idle with ⟨(_ | _) | _, _⟩
  all_goals
    rw [hrun] at h
    exact h

variable {tree : Tree}

-- What a program leaves behind in the scope that it was run in.
theorem runIn_ends (hloose : D.Loose) (ht : Interpreter.Runs D tree)
    (hst : State D A K [] scope m.idle) :
    Ends (fun m' => Frame K (· = scope) m.idle m'.idle ∧ State D A K [] scope m'.idle) D.admits
      (m.runIn fuel tree scope) := by
  have hsettled : ∀ r : Run, Settled D A K scope m.idle r →
      Frame K (· = scope) m.idle r.machine.idle ∧ State D A K [] scope r.machine.idle :=
    fun r hs => ⟨hs.frame.trans (.of_machine rfl rfl), hs.state.congr rfl⟩
  refine start_ends ((Interpreter.runTree_sound (Interpreter.ofFuel_sound hloose fuel) fuel ht hst
    rfl rfl).mono (fun _ r hs => hsettled r hs) ?_)
  rintro (f | _) r hs
  · exact ⟨hsettled r hs.1, hs.2⟩
  · trivial

-- Behind a program its scope goes, and what is left is how it ended.
theorem settled_ensures {outcome : Except Failure Outcome} {n : ScopeId} {r₁ r : Run}
    {E : Halt → Run → Prop} (he : Ending D A K m.root n [] m.idle r₁)
    (hs : Settled D (inside A n) K n r₁ r)
    (hE : ∀ f r', outcome = .error f → Frame K noScope m.idle r'.machine.idle ∧
      State D A K [] m.root r'.machine.idle → E (.failure f) r') :
    Ensures (do
      let destroyed ← Exec.attempt (Exec.onStore (Store.destroy n))
      let outcome ← Exec.ofExcept outcome
      Exec.ofExcept destroyed
      return outcome) r
      (fun _ r' => Frame K noScope m.idle r'.machine.idle ∧
        State D A K [] m.root r'.machine.idle) E := by
  have hdestroy := ((he.later hs.frame (hs.state.congr rfl)).destroy (E := fun _ _ => False)
    (by simp))
  rw [Exec.onStore_iff] at hdestroy
  rw [Ensures.bind_iff, Exec.attempt_iff, Exec.onStore_iff]
  refine hdestroy.mono ?_ fun _ _ => False.elim
  rintro _ st ⟨hf, hst', -⟩
  have hq : Frame K noScope m.idle (r.withStore st).machine.idle ∧
      State D A K [] m.root (r.withStore st).machine.idle :=
    ⟨hf.trans (.of_machine rfl hf.last.symm), hst'.congr rfl⟩
  cases outcome with
  | ok a => exact hq
  | error f => exact hE f _ rfl hq

-- A program in a scope of its own leaves nothing behind.
theorem run_ends (hloose : D.Loose) (ht : Interpreter.Runs D tree)
    (hst : State D A K [] m.root m.idle) :
    Ends (fun m' => Frame K noScope m.idle m'.idle ∧ State D A K [] m.root m'.idle) D.admits
      (m.run fuel tree) := by
  refine start_ends ?_
  rw [Ensures.bind_iff]
  refine (Exec.createChild_ensures hst rfl).mono ?_ ?_
  swap
  · rintro (f | _) r hf
    · exact ⟨⟨hf.1.trans (.of_machine rfl hf.1.last.symm), hf.2.1.congr rfl⟩, hf.2.2.2⟩
    · trivial
  rintro n r₁ ⟨he, hflow, -⟩
  have hlast : r₁.last = none := he.frame.last
  rw [Ensures.bind_iff, Exec.attempt_iff]
  refine (Interpreter.runTree_sound (Interpreter.ofFuel_sound hloose fuel) fuel ht he.state
    (hflow.trans rfl) hlast).mono ?_ ?_
  · exact fun outcome r hs => settled_ensures he hs fun _ _ hf => nomatch hf
  · rintro (f | _) r hs
    · refine settled_ensures he hs.1 fun g r' hg hq => ?_
      cases hg
      exact ⟨hq, hs.2⟩
    · trivial

-- A parsed source, whatever its failures.
theorem run_sound (hst : State .free A K [] m.root m.idle)
    (hm : m.after? fuel (.run source) = some m') :
    Frame K noScope m.idle m'.idle ∧ State .free A K [] m.root m'.idle :=
  (run_ends Discipline.free_loose (Discipline.free_runs source) hst).returned hm

theorem runIn_sound (hst : State .free A K [] scope m.idle)
    (hm : m.after? fuel (.runIn source scope) = some m') :
    Frame K (· = scope) m.idle m'.idle ∧ State .free A K [] scope m'.idle :=
  (runIn_ends Discipline.free_loose (Discipline.free_runs source) hst).returned hm

theorem run_rests (hr : m.store.Rests .free) (hm : m.after? fuel (.run source) = some m') :
    m'.store.Rests .free :=
  .of_state (run_sound (Store.Rests.state (r := m.idle) hr (.inr fun _ => trivial)) hm).2

-- Below an outermost scope with constants only, it leaves everything as it was.
theorem run_restores (hr : m.store.Rests .free) (hp : m.store.Pristine m.root)
    (hm : m.after? fuel (.run source) = some m') :
    (∀ x, m'.store.heap.var? x = m.store.heap.var? x) ∧
      (∀ s, m'.store.scope? s = m.store.scope? s) ∧
      m'.root = m.root ∧ m'.depth = m.depth ∧ m'.config = m.config := by
  obtain ⟨hf, hst⟩ := run_sound (Store.Pristine.state_in (r := m.idle) hp hr (.inr fun _ => trivial)) hm
  have hscopes : ∀ s, m'.store.scope? s = m.store.scope? s := fun s => hf.scopes s id
  refine ⟨fun x => ?_, hscopes, hf.root, hf.depth, hf.config⟩
  by_cases hx : m.store.heap.Live x
  · exact hf.keeps x hx
  rcases hv : m'.store.heap.var? x with _ | v
  · rcases hu : m.store.heap.var? x with _ | u
    · rfl
    · exact absurd ⟨u, hu⟩ hx
  -- It would lie in something that has been bound all along.
  obtain ⟨s, top, ⟨sc, name, hsc, hin⟩, hb⟩ := (run_rests hr hm).reached ⟨v, hv⟩
  obtain ⟨w, hw, -⟩ := hr.sound.bound ((hscopes s).symm.trans hsc) hin
  exact absurd ((hst.closed.below hb).mpr ⟨w, hw⟩) hx

theorem run_live (hr : m.store.Rests .free) (hp : m.store.Pristine m.root)
    (hm : m.after? fuel (.run source) = some m') : m'.liveVariables = m.liveVariables :=
  hr.sound.heap.forest.arena.live_congr (run_rests hr hm).sound.heap.forest.arena
    (run_restores hr hp hm).1

theorem openSession_rests (hr : m.store.Rests .free) :
    m.openSession.2.store.Rests .free ∧ m.openSession.2.root = m.root ∧
      (m.store.Pristine m.root → m.openSession.2.store.Pristine m.root) := by
  have h := @Store.createChild_ensures _ m.root "session" hr.sound
  unfold Ensures at h
  unfold openSession
  rcases hrun : (Store.createChild m.root "session").run.run m.store with ⟨_ | n, st⟩
  all_goals
    rw [hrun] at h
    simp only at h ⊢
  · rw [h.1]
    exact ⟨hr, trivial, id⟩
  · exact ⟨hr.created h.2, trivial, fun hp => hp.created h.2 h.1⟩

theorem closeSession_rests (hr : m.store.Rests .free) :
    (m.closeSession scope).2.store.Rests .free ∧ (m.closeSession scope).2.root = m.root ∧
      (m.store.Pristine m.root → (m.closeSession scope).2.store.Pristine m.root) := by
  have h : Ensures (Store.destroy scope) m.store
      (fun _ st => Store.Destroyed m.store scope st) (fun _ st => st = m.store) := by
    rcases hsc : m.store.scope? scope with _ | sc
    · rw [Store.destroy, Ensures.bind_iff, Store.readScopes_lookup_stale hsc]
    · exact Store.destroy_ensures hr.sound hsc
  unfold Ensures at h
  unfold closeSession
  rcases hrun : (Store.destroy scope).run.run m.store with ⟨_ | _, st⟩
  all_goals
    rw [hrun] at h
    simp only at h ⊢
  · rw [h]
    exact ⟨hr, trivial, id⟩
  · exact ⟨hr.destroyed h, trivial, fun hp => hp.destroyed hr.sound h⟩

-- One call.
theorem after?_rests (hr : m.store.Rests .free) (hm : m.after? fuel c = some m') :
    m'.store.Rests .free ∧ m'.root = m.root ∧
      ((∀ source, c ≠ .runIn source m.root) → m.store.Pristine m.root →
        m'.store.Pristine m.root) := by
  cases c with
  | run source =>
    refine ⟨run_rests hr hm, (run_sound (Store.Rests.state (r := m.idle) hr (.inr fun _ => trivial)) hm).1.root,
      fun _ hp => ?_⟩
    obtain ⟨hvar, hscope, -⟩ := run_restores hr hp hm
    exact hp.keeps (fun x _ => hvar x) (hscope m.root)
  | openSession =>
    cases hm
    obtain ⟨h₁, h₂, h₃⟩ := openSession_rests hr
    exact ⟨h₁, h₂, fun _ => h₃⟩
  | runIn source scope =>
    obtain ⟨hf, hst⟩ := runIn_sound (Store.Rests.state (r := m.idle) hr (.inr fun _ => trivial)) hm
    refine ⟨.of_state hst, hf.root, fun hne hp => ?_⟩
    obtain ⟨hf', -⟩ := runIn_sound (Store.Pristine.state_beside (r := m.idle) hp hr (.inr fun _ => trivial)) hm
    refine hp.keeps hf'.keeps (hf'.scopes m.root fun he => ?_)
    exact hne source (by rw [he])
  | closeSession scope =>
    cases hm
    obtain ⟨h₁, h₂, h₃⟩ := (closeSession_rests hr : _ ∧ (m.closeSession scope).2.root = _ ∧ _)
    exact ⟨h₁, h₂, fun _ => h₃⟩

-- All calls.
theorem Reached.rests (h : Reached config calls m) :
    m.store.Rests .free ∧ m.root = (ofConfig config).root ∧
      ((∀ source, .runIn source m.root ∉ calls) → m.store.Pristine m.root) := by
  induction h with
  | start =>
    obtain ⟨hr, hp⟩ := rests_ofConfig .free config
    exact ⟨hr, rfl, fun _ => hp⟩
  | call _ hm ih =>
    obtain ⟨hr, hroot, hp⟩ := ih
    obtain ⟨hr', hroot', hp'⟩ := after?_rests hr hm
    refine ⟨hr', hroot'.trans hroot, fun hno => ?_⟩
    rw [hroot'] at hno ⊢
    exact hp' (fun source he => hno source (he ▸ List.mem_cons_self ..))
      (hp fun source hin => hno source (List.mem_cons_of_mem _ hin))

end Calls

section Shutdown

-- When every scope has gone, so has every variable.
theorem shutdown_ensures {st : Store} (hr : st.Rests .free) :
    Ensures (st.scopes.arena.handles.forM Store.destroy) st
      (fun _ st' => st'.heap.liveCount = 0) (fun _ _ => False) := by
  let I : List ScopeId → Store → Prop := fun rest st' =>
    st'.Rests .free ∧ rest.Nodup ∧ ∀ s, s ∈ rest ↔ ∃ sc, st'.scope? s = some sc
  refine (Ensures.forM I ?_ _ _ ⟨hr, Arena.nodup_handles, fun s => Arena.mem_handles⟩).mono ?_
    fun _ _ he => he
  · rintro s rest st₁ ⟨hr₁, hnd, hlive⟩
    obtain ⟨hnot, hnd⟩ := List.nodup_cons.mp hnd
    obtain ⟨sc, hsc⟩ := (hlive s).mp (List.mem_cons_self ..)
    refine (Store.destroy_ensures hr₁.sound hsc).mono ?_ fun _ _ he => he
    refine fun _ st₂ hd => ⟨hr₁.destroyed hd, hnd, fun t => ?_⟩
    rw [hd.scope]
    split
    · subst_vars
      simp [hnot]
    · rename_i hne
      rw [← hlive t, List.mem_cons, or_iff_right hne]
  · rintro _ st' ⟨hr', -, hlive⟩
    refine hr'.sound.heap.forest.arena.live_eq_length List.nodup_nil fun x => ?_
    refine ⟨nofun, fun hx => ?_⟩
    obtain ⟨s, top, ⟨sc, name, hsc, -⟩, -⟩ := hr'.reached hx
    cases (hlive s).mpr ⟨sc, hsc⟩

theorem shutdown_eq (hr : m.store.Rests .free) : m.shutdown = .ok 0 := by
  have h := shutdown_ensures hr
  unfold Ensures at h
  unfold shutdown
  rcases hrun : (m.store.scopes.arena.handles.forM Store.destroy).run.run m.store with ⟨_ | _, st⟩
  all_goals
    rw [hrun] at h
    simp only at h
  rw [← h]
  rfl

end Shutdown

-- Nothing is lost on any path: whatever lives hangs from a name of a living
-- scope, and can be cleared away with the scopes. A program in a scope of its own leaves
-- as many variables as it found, if none has been run in the outermost scope.
theorem Reached.no_leak {calls : List HostCall} (h : Reached config calls m) :
    (∀ x, m.store.heap.Live x → ∃ s top, m.store.Bound s top ∧ m.store.heap.Below top x) ∧
      m.shutdown = .ok 0 ∧
      ((∀ source, .runIn source m.root ∉ calls) → ∀ fuel source m',
        m.after? fuel (.run source) = some m' → m'.liveVariables = m.liveVariables) := by
  obtain ⟨hr, -, hp⟩ := h.rests
  exact ⟨fun _ hx => hr.reached hx, shutdown_eq hr, fun hno _ _ _ hm => run_live hr (hp hno) hm⟩

-- A new machine holds its four constants.
example : (ofConfig {}).liveVariables = 4 := by decide +kernel

-- One program that fails halfway, with an array at hand.
theorem isSome_after_failed : ((ofConfig {}).after? 9 (.run "var a = [1]; a[0] + b;")).isSome := by
  decide +kernel

theorem Reached.no_leak_failed : ∃ m, Reached {} [.run "var a = [1]; a[0] + b;"] m ∧
    m.shutdown = .ok 0 ∧
    ∀ m', m.after? 9 (.run "exit [[\"x\"]];") = some m' → m'.liveVariables = m.liveVariables := by
  have h := Reached.call .start (Option.some_get isSome_after_failed).symm
  obtain ⟨-, hshut, hlive⟩ := h.no_leak
  exact ⟨_, h, hshut, hlive (by simp) 9 _⟩

-- A program may leave more behind in what was declared in the outermost scope.
theorem Reached.live_grows : ∃ m m', Reached {} [.runIn "var a;" m.root] m ∧
    m.after? 9 (.run "a = [\"x\"];") = some m' ∧ m'.liveVariables ≠ m.liveVariables := by
  have h : (((ofConfig {}).after? 9 (.runIn "var a;" (ofConfig {}).root)).bind fun m =>
      (m.after? 9 (.run "a = [\"x\"];")).map fun m' =>
        (m.root, m.liveVariables, m'.liveVariables)) = some ((ofConfig {}).root, 5, 6) := by
    decide +kernel
  obtain ⟨m, hm, h⟩ := Option.bind_eq_some_iff.mp h
  obtain ⟨m', hm', h⟩ := Option.map_eq_some_iff.mp h
  simp only [Prod.mk.injEq] at h
  obtain ⟨hroot, hlive, hlive'⟩ := h
  refine ⟨m, m', ?_, hm', by rw [hlive, hlive']; decide⟩
  rw [hroot]
  exact .call .start hm

end Machine

end FinLang

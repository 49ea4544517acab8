import FinLang.Proofs.Machine.Keeping

namespace FinLang

variable {α : Type} {o : Outset} {ok : Point → Run → Bool} {n scope caller : ScopeId} {r r' : Run}
  {x : VarId} {name : String} {self : Interpreter} {node : Node} {part : Exec α}

namespace Library

open Exec

theorem argument_keeping : Keeping o (argument scope name) := by
  refine Keeping.readScopes.bind fun sc => ?_
  split
  · exact .pure
  · exact .fail

theorem finish_keeping {result : Option VarId} : Keeping o (finish result) :=
  Keeping.setKind.bind fun _ => .forM_option fun _ => .setResult

theorem finishWith_keeping {p : Payload} (hp : p.elements = #[]) (hl : ∀ t, p ≠ .link t) :
    Keeping o (finishWith p) :=
  (Keeping.alloc hp hl).bind fun _ => finish_keeping

theorem print_keeping : Keeping o (print scope) := by
  refine Keeping.readScopes.bind fun sc => ?_
  refine (Keeping.mapM (fun _ => .readHeap) _).bind fun values => ?_
  have hemit : Keeping o (modifyMachine (·.emit (" ".intercalate (values.map Value.text)))) := by
    intro r hr
    refine Ensures.modify_iff.mpr (hr.congr Machine.store_emit ?_)
    simp only [Machine.depth_emit, Machine.config_emit]
    exact hr.fine.depth
  exact hemit.bind fun _ => finish_keeping

theorem callingScope_keeping : Keeping o (callingScope scope) :=
  Keeping.readScopes.bind fun _ => Keeping.get.bind fun _ => .pure

theorem extArgCount_keeping : Keeping o (extArgCount scope) := by
  refine .bind callingScope_keeping fun outer => ?_
  cases outer with
  | none => exact Keeping.pure.bind fun _ => finishWith_keeping rfl nofun
  | some s =>
    simp only
    exact Keeping.readScopes.bind fun _ => Keeping.pure.bind fun _ => finishWith_keeping rfl nofun

theorem extArg_keeping : Keeping o (extArg scope) := by
  refine .bind argument_keeping fun id => Keeping.readHeap.bind fun number => ?_
  split
  · exact .fail
  refine .bind callingScope_keeping fun outer => ?_
  cases outer with
  | none => exact .fail
  | some s =>
    refine Keeping.readScopes.bind fun sc => ?_
    split
    · exact finish_keeping
    · exact .fail

-- What is handed on is bound in the scope of this very call, not in the outermost one.
theorem call_keeping (hself : self.Guarding o) (hne : scope ≠ o.root) :
    Keeping o (call self scope) := by
  refine .bind argument_keeping fun id => Keeping.readHeap.bind fun name => ?_
  refine Keeping.get.bind fun r₀ => ?_
  split
  · exact .fail
  intro r hr
  rw [Ensures.bind_iff]
  rcases hsc : r.scope? scope with _ | sc
  · have hstale : r.machine.store.scopes.lookup scope = .error (.of (.staleScope scope)) := by
      simp [Scopes.lookup, hsc]
    exact Ensures.bind_iff.mpr ((ofExcept_error hstale).mpr hr)
  refine (readScopes_lookup hsc).mpr ?_
  have hbound : (Arguments.values (extArgs sc)).Bound r := by
    intro x hx
    obtain ⟨name, hin⟩ := mem_extArgs hx
    exact ⟨scope, sc, name, hsc, hin⟩
  have hspares : (Arguments.values (extArgs sc)).Spares o := by
    intro x hx
    obtain ⟨_, hin⟩ := mem_extArgs hx
    exact hr.not_fixed_of_bound hsc hin hne
  rw [Ensures.bind_iff]
  refine (Interpreter.freshCall_secure hself hr hbound hspares).mono ?_ fun _ _ he => he
  intro ended r₁ hr₁
  split
  · exact ((Keeping.forM_option fun _ => .setResult).bind fun _ => .setKind) r₁ hr₁
  · exact finish_keeping r₁ hr₁

theorem imageSide_keeping : Keeping o (imageSide scope name) := by
  refine .bind argument_keeping fun id => Keeping.readHeap.bind fun x => ?_
  split
  · split
    · exact .fail
    · exact .pure
  · exact .fail

theorem image_keeping : Keeping o (image scope) := by
  refine .bind imageSide_keeping fun width => .bind imageSide_keeping fun height => ?_
  dsimp only
  split
  · exact Keeping.fail.bind fun _ => finishWith_keeping rfl nofun
  · exact finishWith_keeping rfl nofun

theorem run_keeping (hself : self.Guarding o) (hne : scope ≠ o.root) (native : Native) :
    Keeping o (run self scope native) := by
  cases native with
  | print => exact print_keeping
  | len =>
    exact .bind argument_keeping fun _ => Keeping.readHeap.bind fun _ => finishWith_keeping rfl nofun
  | typeOf =>
    exact .bind argument_keeping fun _ => Keeping.readHeap.bind fun _ => finishWith_keeping rfl nofun
  | extArgCount => exact extArgCount_keeping
  | extArg => exact extArg_keeping
  | call => exact call_keeping hself hne
  | callDepth => exact Keeping.get.bind fun _ => finishWith_keeping rfl nofun
  | image => exact image_keeping
  | math f =>
    exact .bind argument_keeping fun _ => Keeping.readHeap.bind fun _ =>
      Keeping.ofExcept.bind fun _ => finishWith_keeping rfl nofun
  | signal kind => exact .setKind

end Library

namespace Interpreter

open Exec

variable {params : List String} {i : Nat} {args : Arguments} {f : Function} {nodes : List Node}

theorem bindNodes_keeping (hself : self.Guarding o) :
    Keeping o (bindNodes self params caller n i nodes) := by
  induction nodes generalizing i with
  | nil => exact .pure
  | cons node rest ih =>
    unfold bindNodes
    refine (hself.eval node caller).bind fun value => ?_
    cases value with
    | none => exact .pure
    | some x => exact own_declare_keeping ih

theorem bindMissing_keeping (names : List String) : Keeping o (bindMissing n names) := by
  unfold bindMissing
  induction names with
  | nil => exact .pure
  | cons name rest ih =>
    simp only [List.forM_eq_forM, List.forM_cons, bind_assoc] at ih ⊢
    exact null_declare_keeping ih

theorem bindValues_secure (ids : List VarId) (hr : r.Secure o)
    (hbound : (Arguments.values ids).Bound r) (hspares : (Arguments.values ids).Spares o) :
    Ensures (bindValues params n i ids) r (fun _ r' => r'.Secure o) fun _ r' => r'.Secure o := by
  induction ids generalizing r i with
  | nil => exact hr
  | cons value rest ih =>
    obtain ⟨s, sc, old, hsc, hin⟩ := hbound value (List.mem_cons_self ..)
    unfold bindValues declareIn
    rw [← bind_assoc, Ensures.bind_iff]
    refine ((link_declare_secure hr (hspares value (List.mem_cons_self ..)) hsc hin).and
      (link_declare_moves (P := .any n) hr.fine rfl trivial hsc hin)).mono ?_ fun _ _ he => he.1
    rintro _ r₁ ⟨hr₁, hm⟩
    have hrest : (Arguments.values rest).Bound r := fun x hx =>
      hbound x (List.mem_cons_of_mem _ hx)
    exact ih hr₁ (hrest.moves hm) fun x hx => hspares x (List.mem_cons_of_mem _ hx)

theorem bindArguments_secure (hself : self.Guarding o) (hr : r.Secure o) (hbound : args.Bound r)
    (hspares : args.Spares o) :
    Ensures (bindArguments self params args caller n) r (fun _ r' => r'.Secure o)
      fun _ r' => r'.Secure o := by
  unfold bindArguments
  cases args with
  | nodes nodes =>
    have hnodes : Keeping o (do
        if ← bindNodes self params caller n 0 nodes then
          bindMissing n (params.drop nodes.length)
          return true
        else
          return false) := by
      refine (bindNodes_keeping hself).bind fun bound => ?_
      split
      · exact (bindMissing_keeping _).bind fun _ => .pure
      · exact .pure
    exact hnodes r hr
  | values ids =>
    rw [Ensures.bind_iff]
    exact (bindValues_secure ids hr hbound hspares).mono
      (fun _ r₁ hr₁ => ((bindMissing_keeping _).bind fun _ => .pure) r₁ hr₁) fun _ _ he => he

theorem invoke_secure (hself : self.Guarding o) (fuel : Nat) (hne : n ≠ o.root) (hr : r.Secure o)
    (hbound : args.Bound r) (hspares : args.Spares o) :
    Ensures (invoke self fuel f args caller n) r (fun _ r' => r'.Secure o)
      fun _ r' => r'.Secure o := by
  rw [invoke, Ensures.bind_iff]
  refine (bindArguments_secure hself hr hbound hspares).mono ?_ fun _ _ he => he
  intro bound r₁ hr₁
  split
  · cases f.body with
    | native native => exact ((Library.run_keeping hself hne native).bind fun _ => .leaveBody) r₁ hr₁
    | script block => exact ((runList_keeping hself fuel).bind fun _ => .leaveBody) r₁ hr₁
  · exact hr₁

theorem openCall_secure (hr : r.Secure o) :
    Ensures (onStore do
      let scope ← Store.createChild caller f.name
      Store.setBelongsTo scope f
      return scope) r
      (fun n r' => r'.Secure o ∧ n ≠ o.root) fun _ r' => r'.Secure o := by
  rw [onStore_iff, Ensures.bind_iff]
  refine ((onStore_iff.mp (createChild_secure hr)).and
    (Store.createChild_ensures hr.fine.sound)).mono ?_ fun _ _ he => he.1
  rintro n st ⟨⟨hr₁, hne⟩, -, hc⟩
  obtain ⟨sc, -, -, -, hsc⟩ := hc.scope
  rw [Ensures.bind_iff]
  refine (Store.setBelongsTo_ensures hc.sound hsc).mono ?_ fun _ _ he => he
  rintro _ st' ⟨hs, hheap, -, hothers⟩
  have hkeeps : Heap.Keeps o.Fixed st.heap st'.heap := by
    rw [hheap]
    exact .refl
  exact ⟨hr₁.of_scopes hs hkeeps (hothers _ hne.symm), hne⟩

-- The scope of a call goes when it ends, and the level below it.
theorem enterCall_secure {body : ScopeId → Exec Unit} (hr : r.Secure o)
    (hbody : ∀ n r₁, n ≠ o.root → Opened n r r₁ → r₁.deeper.Secure o →
      Ensures (body n) r₁.deeper (fun _ r' => r'.Secure o) fun _ r' => r'.Secure o) :
    Ensures (enterCall f caller body) r (fun _ r' => r'.Secure o) fun _ r' => r'.Secure o := by
  rw [enterCall, Ensures.bind_iff, Ensures.get_iff]
  simp only
  split
  · exact Ensures.bind_iff.mpr hr
  rename_i hlimit
  rw [Ensures.bind_iff]
  refine ((openCall_secure hr).and (openCall_opened hr.fine)).mono ?_ fun _ _ he => he.1
  rintro n r₁ ⟨⟨hr₁, hne⟩, ho⟩
  have hdeep : r₁.deeper.Secure o := by
    refine hr₁.congr rfl ?_
    show r₁.machine.depth + 1 ≤ r₁.machine.config.maxCallDepth
    rw [ho.config, ho.depth]
    omega
  rw [Ensures.bind_iff]
  refine Ensures.modify_iff.mpr ?_
  rw [Ensures.bind_iff, attempt_iff]
  have hleave : ∀ {r₂ : Run} {ended : Except Failure Unit}, r₂.Secure o →
      Ensures (leaveScope n ended) r₂.higher (fun _ r' => r'.Secure o) fun _ r' => r'.Secure o :=
    fun hr₂ => leaveScope_keeping hne _
      (hr₂.congr rfl (Nat.le_trans (Nat.sub_le ..) hr₂.fine.depth))
  refine (hbody n r₁ hne ho hdeep).mono ?_ ?_
  · intro _ r₂ hr₂
    exact Ensures.bind_iff.mpr (Ensures.modify_iff.mpr (hleave hr₂))
  · rintro (e | _) r₂ hr₂
    · exact Ensures.bind_iff.mpr (Ensures.modify_iff.mpr (hleave hr₂))
    · exact hr₂

theorem watch_secure {p : Point} (hr : r.Secure o)
    (hpart : Ensures part r (fun _ r' => r'.Secure o) fun _ r' => r'.Secure o) :
    Ensures (watch ok p part) r (fun _ r' => r'.Secure o) fun _ r' => r'.Secure o := by
  have hpass : Keeping o (Exec.pass ok p) := by
    refine Keeping.get.bind fun r => ?_
    split
    · exact .pure
    · exact .outOfFuel
  rw [watch, Ensures.bind_iff, Exec.pass, Ensures.bind_iff, Ensures.get_iff]
  split
  swap
  · exact hr
  refine Ensures.pure_iff.mpr ?_
  rw [Ensures.bind_iff, attempt_iff]
  have hend : ∀ ended : Except Failure α, Keeping o (do Exec.pass ok p; ofExcept ended) := fun _ =>
    hpass.bind fun _ => .ofExcept
  refine hpart.mono (fun a r₁ hr₁ => hend (.ok a) r₁ hr₁) ?_
  rintro (f | _) r₁ hr₁
  · exact hend (.error f) r₁ hr₁
  · exact hr₁

-- Wherever the interpreter is stopped, it has left the constants alone.
theorem watched_guarding (ok : Point → Run → Bool) (fuel : Nat) : (watched ok fuel).Guarding o := by
  induction fuel with
  | zero => exact ⟨fun _ _ => .outOfFuel, fun _ _ => .outOfFuel, fun hr _ _ => hr⟩
  | succ n ih =>
    have horder := watched_orderly ok n
    refine ⟨fun node scope r hr => ?_, fun node scope r hr => ?_, fun hr hbound hspares => ?_⟩
    · exact watch_secure hr (evalNode_keeping ih horder r hr)
    · exact watch_secure hr (execNode_keeping ih n r hr)
    · refine watch_secure hr (enterCall_secure hr fun s r₁ hne ho hdeep => ?_)
      exact watch_secure hdeep (invoke_secure ih n hne hdeep (hbound.deeper ho) hspares)

section Programs

theorem keepLast_keeping : Keeping o (keepLast x) := by
  refine Keeping.get.bind fun r => ?_
  have hkeep : Keeping o (modify fun r => { r with last := some x } : Exec Unit) :=
    fun _ hr => Ensures.modify_iff.mpr ⟨⟨hr.fine.sound, hr.fine.depth⟩, hr.lasts⟩
  refine hkeep.bind fun _ => ?_
  split
  · exact .forM_option fun _ => .release
  · exact .pure

theorem topStatement_keeping (hself : self.Guarding o) :
    Keeping o (topStatement self scope node) := by
  unfold topStatement
  split
  · exact (hself.eval _ scope).located.bind fun _ => .forM_option fun _ => keepLast_keeping
  · exact hself.exec node scope

theorem readOutcome_keeping : Keeping o readOutcome := by
  refine Keeping.get.bind fun r => ?_
  dsimp only
  split
  · split
    · exact Keeping.ofExcept.bind fun _ => .pure
    · exact Keeping.pure.bind fun _ => .pure
  · exact Keeping.pure.bind fun _ => .pure

theorem runProgram_keeping (hself : self.Guarding o) (fuel : Nat) :
    Keeping o (runProgram self fuel nodes scope) := by
  have hbody : Keeping o (do
      runFrom (topStatement self scope) nodes fuel nodes
      leaveBody
      readOutcome) :=
    (runFrom_keeping (fun _ => topStatement_keeping hself) fuel).bind fun _ =>
      Keeping.leaveBody.bind fun _ => readOutcome_keeping
  refine hbody.attempt.bind fun outcome => ?_
  exact Keeping.takeResult.bind fun _ => (Keeping.forM_option fun _ => .release).bind fun _ =>
    Keeping.get.bind fun _ => (Keeping.forM_option fun _ => .release).bind fun _ => .ofExcept

theorem runTree_keeping (hself : self.Guarding o) (fuel : Nat) {tree : Tree} :
    Keeping o (runTree self fuel tree scope) := by
  unfold runTree
  split
  · exact .fail
  split
  · exact .fail
  split
  · exact .pure
  · exact runProgram_keeping hself fuel

end Programs

end Interpreter

-- A name that a scope has for a number of its own.
def Store.Names (st : Store) (scope : ScopeId) (name : String) (x : VarId) (value : Float) : Prop :=
  (∃ sc, st.scope? scope = some sc ∧ sc.varNamed? name = some x) ∧ st.Numbered scope x value

theorem lookup_of_forall₂ {R : VarId → Float → Prop} {constants : List (String × Float)}
    {vars : List (String × VarId)} {value : Float}
    (hall : List.Forall₂ (fun c b => b.1 = c.1 ∧ R b.2 c.2) constants vars)
    (hnd : (constants.map Prod.fst).Nodup) (hc : (name, value) ∈ constants) :
    ∃ x, vars.lookup name = some x ∧ R x value := by
  induction hall with
  | nil => cases hc
  | @cons c b _ _ hcb _ ih =>
    obtain ⟨s, x⟩ := b
    obtain ⟨rfl, hx⟩ : s = c.1 ∧ R x c.2 := hcb
    obtain ⟨hnot, hnd⟩ := List.nodup_cons.mp hnd
    rcases List.mem_cons.mp hc with rfl | hc
    · exact ⟨x, List.lookup_cons_self, hx⟩
    · have hne : name ≠ c.1 := fun he => hnot (he ▸ List.mem_map_of_mem hc)
      rw [List.lookup_cons, beq_eq_false_iff_ne.mpr hne]
      exact ih hnd hc

theorem Store.Lists.names {st : Store} {constants : List (String × Float)} {value : Float}
    (hl : st.Lists scope constants) (hnd : (constants.map Prod.fst).Nodup)
    (hc : (name, value) ∈ constants) : ∃ x, st.Names scope name x value := by
  obtain ⟨sc, hsc, hall⟩ := hl
  obtain ⟨x, hx, hnum⟩ := lookup_of_forall₂ hall hnd hc
  exact ⟨x, ⟨sc, hsc, hx⟩, hnum⟩

-- What the outermost scope names in the beginning it names ever after.
theorem Outset.Lasts.names {st : Store} {value : Float} (hl : o.Lasts st)
    (hx : o.store.Names o.root name x value) : st.Names o.root name x value := by
  obtain ⟨⟨sc, hsc, hvar⟩, hnum⟩ := hx
  obtain ⟨vars, funcs, hroot⟩ := hl.binds
  rw [hsc] at hroot
  have hfix : o.Fixed x := ⟨sc, name, hsc, mem_of_lookup hvar⟩
  refine ⟨⟨_, hroot, ?_⟩, hnum.keeps (hl.keeps x hfix)⟩
  simp only [Scope.varNamed?, Scope.extend, List.lookup_append] at hvar ⊢
  rw [hvar, Option.some_or]

namespace Machine

variable {m m' : Machine} {config : Config} {fuel : Nat} {tree : Tree} {c : HostCall}
  {calls : List HostCall}

-- The same with another interpreter.
def runBy (self : Interpreter) (m : Machine) (fuel : Nat) (tree : Tree) :
    Except Halt Outcome × Machine :=
  m.start do
    let scope ← Exec.onStore (Store.createChild m.root "program")
    let outcome ← Exec.attempt (self.runTree fuel tree scope)
    let destroyed ← Exec.attempt (Exec.onStore (Store.destroy scope))
    let outcome ← Exec.ofExcept outcome
    Exec.ofExcept destroyed
    return outcome

def runInBy (self : Interpreter) (m : Machine) (fuel : Nat) (tree : Tree) (scope : ScopeId) :
    Except Halt Outcome × Machine :=
  m.start (self.runTree fuel tree scope)

-- The machine in the middle of a call, at the first point that is refused.
def during (m : Machine) (ok : Point → Run → Bool) (fuel : Nat) : HostCall → Machine
  | .run source => (m.runBy (.watched ok fuel) fuel (Tree.parse source)).2
  | .openSession => m.openSession.2
  | .runIn source scope => (m.runInBy (.watched ok fuel) fuel (Tree.parse source) scope).2
  | .closeSession scope => (m.closeSession scope).2

-- Where nothing is refused, this is the end of the call.
theorem during_all (hm : m.after? fuel c = some m') : m.during (fun _ _ => true) fuel c = m' := by
  have hreturned : ∀ {α : Type} {ended : Except Halt α × Machine}, returned ended = some m' →
      ended.2 = m' := by
    rintro α ⟨(_ | _) | _, m₁⟩ hm <;> cases hm <;> rfl
  cases c with
  | run source =>
    rw [during, Interpreter.watched_all]
    exact hreturned hm
  | openSession => exact Option.some.inj hm
  | runIn source scope =>
    rw [during, Interpreter.watched_all]
    exact hreturned hm
  | closeSession scope => exact Option.some.inj hm

theorem start_secure (hm : m.idle.Secure o) (hp : Keeping o part) :
    (m.start part).2.idle.Secure o := by
  have hend : (part.after m.idle).Secure o := Ensures.after (hp m.idle hm)
  exact hend.congr rfl hend.fine.depth

theorem during_secure (hm : m.idle.Secure o) (hc : c ≠ .closeSession o.root) :
    (m.during ok fuel c).idle.Secure o := by
  have hself := Interpreter.watched_guarding (o := o) ok fuel
  cases c with
  | run source =>
    refine start_secure hm fun r hr => ?_
    rw [Ensures.bind_iff]
    refine (Exec.createChild_secure hr).mono ?_ fun _ _ he => he
    rintro n r₁ ⟨hr₁, hne⟩
    refine Keeping.bind (Interpreter.runTree_keeping hself fuel).attempt (fun outcome => ?_) r₁ hr₁
    exact (Exec.destroy_keeping hne).attempt.bind fun _ => Keeping.ofExcept.bind fun _ =>
      Keeping.ofExcept.bind fun _ => .pure
  | openSession =>
    have hopen : Keeping o (Exec.onStore (Store.createChild m.root "session")) := fun r hr =>
      (Exec.createChild_secure hr).mono (fun _ _ h => h.1) fun _ _ he => he
    exact start_secure hm hopen
  | runIn source scope => exact start_secure hm (Interpreter.runTree_keeping hself fuel)
  | closeSession scope =>
    have hclose : Keeping o (Exec.onStore (Store.destroy scope)) :=
      Exec.destroy_keeping fun he => hc (by rw [he])
    exact start_secure hm hclose

-- A new machine is one to start from.
theorem outset_ofConfig (config : Config) :
    ∃ o : Outset, o.store = (ofConfig config).store ∧ o.root = (ofConfig config).root ∧
      (ofConfig config).idle.Secure o := by
  obtain ⟨hr, hp⟩ := rests_ofConfig .free config
  have hlive := live_root_ofConfig config
  obtain ⟨hdepth, -⟩ := depth_ofConfig config
  generalize ofConfig config = m at hr hp hlive hdepth ⊢
  refine ⟨⟨m.store, m.root, hr.sound, hp, hlive⟩, rfl, rfl, ⟨hr.sound, ?_⟩, .refl, [], [],
    (Scope.map_extend_nil _).symm⟩
  exact hdepth ▸ Nat.zero_le _

theorem Reached.secure (h : Reached config calls m) (hstart : (ofConfig config).idle.Secure o)
    (hc : .closeSession o.root ∉ calls) : m.idle.Secure o := by
  induction h with
  | start => exact hstart
  | call _ hm ih =>
    rw [List.mem_cons, not_or] at hc
    rw [← during_all hm]
    exact during_secure (ih hc.2) (Ne.symm hc.1)

-- The constants keep their names, handles and values, and cannot be assigned to, whatever programs
-- a host runs, behind every call and at every point in the middle of one.
theorem Reached.constants_last {value : Float} (hc : (name, value) ∈ Library.constants) :
    ∃ x, ∀ calls m, Reached config calls m → .closeSession (ofConfig config).root ∉ calls →
      m.root = (ofConfig config).root ∧ m.store.Names m.root name x value ∧
        ∀ ok fuel c, c ≠ .closeSession m.root →
          (m.during ok fuel c).store.Names m.root name x value := by
  obtain ⟨x, hx⟩ := (lists_ofConfig config).names (by decide) hc
  obtain ⟨o, hstore, hroot, hstart⟩ := outset_ofConfig config
  refine ⟨x, fun calls m h hno => ?_⟩
  have hroot' := h.rests.2.1
  rw [← hstore, ← hroot] at hx
  rw [← hroot] at hroot' hno
  have hm := h.secure hstart hno
  rw [hroot', ← hroot]
  refine ⟨rfl, hm.lasts.names hx, fun ok fuel c hne => ?_⟩
  exact (during_secure hm hne).lasts.names hx

-- One program fails at a constant, and another one hides it.
theorem Reached.constants_last_attacked :
    ∃ x m, Reached {} [.runIn "f(p) { p = 1; PI++; } call(\"f\", \"x\");" (ofConfig {}).root] m ∧
      m.store.Names m.root "PI" x 3.141592653589793 ∧
      ∀ ok, (m.during ok 9 (.run "var PI = 1; PI = 2;")).store.Names m.root "PI" x
        3.141592653589793 := by
  have hsome : ((ofConfig {}).after? 9
      (.runIn "f(p) { p = 1; PI++; } call(\"f\", \"x\");" (ofConfig {}).root)).isSome := by
    decide +kernel
  have h := Reached.call .start (Option.some_get hsome).symm
  have hpi : ("PI", 3.141592653589793) ∈ Library.constants := List.mem_cons_self ..
  obtain ⟨x, hx⟩ := @Reached.constants_last "PI" {} _ hpi
  obtain ⟨-, hname, hduring⟩ := hx _ _ h (by simp)
  exact ⟨x, _, h, hname, fun ok => hduring ok 9 _ nofun⟩

end Machine

end FinLang

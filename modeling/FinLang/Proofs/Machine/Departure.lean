import FinLang.Proofs.Machine.Unwinding

namespace FinLang

-- A jump that ends a run, and another run of the same that goes on behind it until it is stopped:
-- an `exit`, or a `return` with a value at some level of calls.
structure Departure where
  ok : Point → Run → Bool
  level : Option Nat

namespace Departure

variable (d : Departure)

def leaves (r : Run) : Bool :=
  match d.level with
  | none => r.flow.isExit
  | some n => r.flow.kind == .returning && r.flow.result.isSome && r.machine.depth == n

-- Nothing is let through behind the jump.
def strict (p : Point) (r : Run) : Bool :=
  d.ok p r && !d.leaves r

-- The flow on the way out, and behind the call that a `return` leaves.
def kind : FlowKind :=
  if d.level.isNone then .exiting else .returning

def settled : FlowKind :=
  if d.level.isNone then .exiting else .next

-- The jump has been made. What an `exit` takes along is not lost where the other run goes on.
structure Left (r : Run) : Prop where
  leaves : d.leaves r = true
  kept : d.level = none → r.flow.result ≠ none → ∀ p r', d.ok p r' = true →
    r'.flow.kind = .exiting → ¬r'.Lost

-- The jump has not been made.
def Stays (r : Run) : Prop :=
  d.level = none → r.flow.kind ≠ .exiting

-- On its way out the other run has been stopped.
structure Stopped (r r' : Run) : Prop where
  recedes : r.Recedes r'
  exiting : d.level = none → r'.flow.kind = .exiting
  refused : ∃ p, d.ok p r' = false

def Ends (r : Run) (e : Halt) (r' : Run) : Prop :=
  e = .outOfFuel ∧ d.Stopped r r'

-- Where a construct may begin. A `return` is looked for at its level or further out.
structure Ready (r : Run) : Prop where
  upright : r.Upright
  flow : r.flow = .start
  level : ∀ n ∈ d.level, n ≤ r.machine.depth

end Departure

variable {α β : Type}

-- What the second of two parts comes to where the first one fails, or is stopped at the jump.
def Departs.Halts (d : Departure) (N : Prop) (S : Run → α → Run → Prop) (y : Exec α) (r : Run) :
    Halt → Run → Prop
  | .failure f, r' => y.run.run r = (.error (.failure f), r') ∧ d.Stays r'
  | .outOfFuel, r' => d.Left r' → N ∧ Ensures y r (S r') (d.Ends r')

-- Two parts that come to the same, unless the first one is stopped at the jump. Then the second one
-- is on its way out.
def Departs (d : Departure) (N : Prop) (T : α → Run → Prop) (S : Run → α → Run → Prop)
    (x y : Exec α) (r : Run) : Prop :=
  Ensures x r (fun a r' => y.run.run r = (.ok a, r') ∧ T a r') (Departs.Halts d N S y r)

-- A part that has an end and leaves the flow alone.
def Aside (x : Exec α) : Prop :=
  ∀ r : Run, Ensures x r (fun _ r' => r'.flow = r.flow) fun e r' =>
    (∃ f, e = .failure f) ∧ r'.flow = r.flow

-- A part that has an end and makes no jump.
def Jumpless (x : Exec α) : Prop :=
  ∀ r : Run, Ensures x r (fun _ r' => r'.flow.kind = r.flow.kind ∨ r'.flow.kind = .next) fun e r' =>
    (∃ f, e = .failure f) ∧ (r'.flow.kind = r.flow.kind ∨ r'.flow.kind = .next)

variable {d : Departure} {N N' : Prop} {T T' : α → Run → Prop} {S S' : Run → α → Run → Prop}
  {U : β → Run → Prop} {V : Run → β → Run → Prop} {x y : Exec α} {r r' : Run} {id : VarId}
  {scope : ScopeId} {name : String}

namespace Aside

theorem pure {a : α} : Aside (Pure.pure a : Exec α) :=
  fun _ => rfl

theorem fail {c : Cause} : Aside (Exec.fail c : Exec α) :=
  fun _ => ⟨⟨_, rfl⟩, rfl⟩

theorem throw {f : Failure} : Aside (throw (.failure f) : Exec α) :=
  fun _ => ⟨⟨_, rfl⟩, rfl⟩

theorem bind {f : α → Exec β} (hx : Aside x) (hf : ∀ a, Aside (f a)) : Aside (x >>= f) :=
  fun r => (hx r).bind fun a r' h => (hf a r').mono (fun _ _ h' => h'.trans h)
    fun _ _ he => ⟨he.1, he.2.trans h⟩

theorem ofExcept {v : Except Failure α} : Aside (Exec.ofExcept v) := by
  cases v with
  | ok a => exact pure
  | error f => exact throw

theorem get : Aside (MonadState.get : Exec Run) :=
  fun _ => rfl

theorem flow : Aside Exec.flow :=
  fun _ => rfl

theorem modifyMachine {f : Machine → Machine} : Aside (Exec.modifyMachine f) :=
  fun _ => Ensures.modify_iff.mpr rfl

theorem last {id : VarId} : Aside (modify fun r => { r with last := some id } : Exec Unit) :=
  fun _ => Ensures.modify_iff.mpr rfl

theorem onStore {op : StoreM α} : Aside (Exec.onStore op) :=
  fun _ => Exec.onStore_iff.mpr (Ensures.trivially.mono (fun _ _ _ => rfl) fun _ _ _ => ⟨⟨_, rfl⟩, rfl⟩)

theorem onHeap {op : HeapM α} : Aside (Exec.onHeap op) :=
  onStore

theorem readHeap {f : Heap → Except Failure α} : Aside (Exec.readHeap f) :=
  .bind get fun _ => ofExcept

theorem readScopes {f : Scopes → Except Failure α} : Aside (Exec.readScopes f) :=
  .bind get fun _ => ofExcept

theorem release : Aside (Exec.release id) :=
  onHeap

theorem allocNull : Aside Interpreter.allocNull :=
  .bind onHeap fun _ => pure

theorem option {f : α → Exec Unit} (hf : ∀ a, Aside (f a)) {v : Option α} : Aside (v.forM f) := by
  cases v with
  | none => exact pure
  | some a => exact hf a

theorem forM {f : α → Exec Unit} (hf : ∀ a, Aside (f a)) (l : List α) : Aside (l.forM f) := by
  induction l with
  | nil => exact pure
  | cons a rest ih =>
    simp only [List.forM_eq_forM, List.forM_cons] at ih ⊢
    exact (hf a).bind fun _ => ih

theorem mapM {f : α → Exec β} (hf : ∀ a, Aside (f a)) (l : List α) : Aside (l.mapM f) := by
  induction l with
  | nil => exact pure
  | cons a rest ih =>
    rw [List.mapM_cons]
    exact (hf a).bind fun _ => ih.bind fun _ => pure

theorem attempt (hx : Aside x) : Aside (Exec.attempt x) := by
  intro r
  rw [Exec.attempt_iff]
  refine (hx r).mono (fun _ _ h => h) ?_
  rintro _ r' ⟨⟨f, rfl⟩, h⟩
  exact h

theorem located {s : Option Span} (hx : Aside x) : Aside (Exec.located s x) := by
  intro r
  rw [Exec.located_iff]
  refine (hx r).mono (fun _ _ h => h) ?_
  rintro _ r' ⟨⟨f, rfl⟩, h⟩
  exact ⟨⟨_, rfl⟩, h⟩

theorem own : Aside (Exec.own id) := by
  refine .bind readHeap fun v => ?_
  split
  · exact pure
  · exact .bind onHeap fun _ => .bind release fun _ => pure

theorem jumpless (hx : Aside x) : Jumpless x :=
  fun r => (hx r).mono (fun _ _ h => .inl (congrArg Flow.kind h)) fun _ _ he =>
    ⟨he.1, .inl (congrArg Flow.kind he.2)⟩

end Aside

namespace Jumpless

theorem bind {f : α → Exec β} (hx : Jumpless x) (hf : ∀ a, Jumpless (f a)) : Jumpless (x >>= f) := by
  refine fun r => (hx r).bind fun a r' h => ?_
  have hlater : ∀ {r'' : Run}, r''.flow.kind = r'.flow.kind ∨ r''.flow.kind = .next →
      r''.flow.kind = r.flow.kind ∨ r''.flow.kind = .next := fun h' =>
    h'.elim (fun he => he ▸ h) .inr
  exact (hf a r').mono (fun _ _ h' => hlater h') fun _ _ he => ⟨he.1, hlater he.2⟩

theorem carry {result : Option VarId} :
    Jumpless (modify fun r => { r with flow := { r.flow with result := result } } : Exec Unit) :=
  fun _ => Ensures.modify_iff.mpr (.inl rfl)

theorem setNext : Jumpless (Exec.setKind .next) :=
  fun _ => Exec.setKind_iff.mpr (.inr rfl)

theorem setResult : Jumpless (Exec.setResult id) :=
  .bind (Aside.jumpless .flow) fun _ => .bind carry fun _ => (Aside.option fun _ => .release).jumpless

theorem setResults {result : Option VarId} : Jumpless (result.forM Exec.setResult) := by
  cases result with
  | none => exact Aside.jumpless .pure
  | some x => exact setResult

theorem takeResult : Jumpless Exec.takeResult :=
  .bind (Aside.jumpless .flow) fun _ => .bind carry fun _ => Aside.jumpless .pure

theorem leaveBody : Jumpless Exec.leaveBody := by
  intro r
  rw [Exec.leaveBody, Ensures.bind_iff, Exec.flow_iff, Ensures.bind_iff]
  rcases hleave : r.flow.leaveBody with e | fl
  · exact (Exec.ofExcept_error rfl).mpr ⟨⟨_, rfl⟩, .inl rfl⟩
  · refine (Exec.ofExcept_ok rfl).mpr (Exec.setFlow_iff.mpr ?_)
    unfold Flow.leaveBody at hleave
    split at hleave <;> cases hleave
    · exact .inl rfl
    · exact .inl rfl
    · exact .inr rfl

theorem attempt (hx : Jumpless x) : Jumpless (Exec.attempt x) := by
  intro r
  rw [Exec.attempt_iff]
  refine (hx r).mono (fun _ _ h => h) ?_
  rintro _ r' ⟨⟨f, rfl⟩, h⟩
  exact h

theorem rescueResult : Jumpless (Exec.rescueResult scope) := by
  refine .bind (Aside.jumpless .flow) fun f => ?_
  split
  · exact Aside.jumpless .pure
  refine .bind (Aside.jumpless .readHeap) fun _ => .bind (Aside.jumpless .readHeap) fun _ => ?_
  split
  · exact .bind (Aside.jumpless .onHeap) fun _ => .bind (Aside.jumpless .onHeap) fun _ => setResult
  · split
    · exact setResult
    · exact Aside.jumpless .pure

theorem dropScope (ended : Except Failure Unit) : Jumpless (Exec.dropScope scope ended) := by
  have hdestroy : ∀ v : Except Failure Unit, Jumpless (do
      let destroyed ← Exec.attempt (Exec.onStore (Store.destroy scope))
      Exec.ofExcept v
      Exec.ofExcept destroyed) := fun v =>
    (Aside.bind (.attempt .onStore) fun _ => .bind .ofExcept fun _ => .ofExcept).jumpless
  cases ended with
  | ok _ => exact hdestroy (.ok ())
  | error f =>
    exact .bind takeResult fun _ => (Aside.option fun _ => .release).jumpless.bind fun _ =>
      hdestroy (.error f)

theorem leaveScope (ended : Except Failure Unit) : Jumpless (Exec.leaveScope scope ended) := by
  cases ended with
  | ok _ => exact .bind (.attempt rescueResult) fun _ => dropScope _
  | error f => exact dropScope (.error f)

end Jumpless

namespace Departure

theorem kind_of_none (hd : d.level = none) : d.kind = .exiting := by
  rw [kind, hd]
  rfl

theorem settled_of_none (hd : d.level = none) : d.settled = .exiting := by
  rw [settled, hd]
  rfl

theorem leaves_exit (hd : d.level = none) (r : Run) : d.leaves r = r.flow.isExit := by
  simp [leaves, hd]

theorem Stays.of_flow (hs : d.Stays r) (h : r'.flow = r.flow) : d.Stays r' :=
  fun hd => h ▸ hs hd

theorem Stays.of_kind {k : FlowKind} (h : r.flow.kind = k) (hk : k ≠ .exiting) : d.Stays r :=
  fun _ => h ▸ hk

theorem Stays.of_jumpless (hs : d.Stays r)
    (h : r'.flow.kind = r.flow.kind ∨ r'.flow.kind = .next) : d.Stays r' :=
  h.elim (fun he hd => he ▸ hs hd) fun he => .of_kind he nofun

-- Where nothing is on its way a `return` has not been made either.
theorem Stays.leaves_eq (hs : d.Stays r) (hres : r.flow.result = none) : d.leaves r = false := by
  rcases hd : d.level with _ | n
  · rw [leaves_exit hd]
    simpa [Flow.isExit] using hs hd
  · simp [leaves, hd, hres]

theorem stays_of_leaves (h : d.leaves r = false) : d.Stays r := by
  intro hd
  rw [leaves_exit hd] at h
  simpa [Flow.isExit] using h

namespace Left

variable (hl : d.Left r)
include hl

theorem kind_eq : r.flow.kind = d.kind := by
  have h := hl.leaves
  rcases hd : d.level with _ | n
  · rw [leaves_exit hd] at h
    simpa [kind, hd, Flow.isExit] using h
  · simp only [Departure.leaves, hd, Bool.and_eq_true, beq_iff_eq] at h
    simpa [kind, hd] using h.1.1

theorem exiting (hd : d.level = none) : r.flow.kind = .exiting :=
  hl.kind_eq.trans (kind_of_none hd)

theorem ne_next : r.flow.kind ≠ .next := by
  rw [hl.kind_eq, kind]
  split <;> nofun

theorem level_eq : ∀ n ∈ d.level, r.machine.depth = n ∧ r.flow.kind = .returning := by
  intro n hn
  have h := hl.leaves
  have hn : d.level = some n := hn
  simp only [Departure.leaves, hn, Bool.and_eq_true, beq_iff_eq] at h
  exact ⟨h.2, h.1.1⟩

-- Whoever has been let through behind an `exit` has what it takes along.
theorem held {p : Point} (hd : d.level = none) (hok : d.ok p r = true) :
    ∀ x ∈ r.flow.result, r.heap.Held x := by
  intro x hx
  by_contra hnot
  have hsome : r.flow.result ≠ none := by
    rw [hx]
    nofun
  exact hl.kept hd hsome p r hok (hl.exiting hd) ⟨x, hx, hnot⟩

end Left

namespace Ready

variable (hr : d.Ready r)
include hr

theorem stays : d.Stays r :=
  .of_kind (k := .next) (by rw [hr.flow]; rfl) nofun

theorem leaves_eq : d.leaves r = false :=
  hr.stays.leaves_eq (by rw [hr.flow]; rfl)

-- A `return` is not looked for further in.
theorem level_none (hn : ∀ n ∈ d.level, n = r.machine.depth + 1) : d.level = none := by
  rcases hd : d.level with _ | n
  · rfl
  · have := hn n hd
    have := hr.level n hd
    omega

theorem of_upright (hu : r'.Upright) (hflow : r'.flow = r.flow)
    (hdepth : r'.machine.depth = r.machine.depth) : d.Ready r' :=
  ⟨hu, hflow.trans hr.flow, fun n hn => hdepth ▸ hr.level n hn⟩

theorem still {J : (VarId → Prop) → Prop} (hs : Still J r r') : d.Ready r' :=
  hr.of_upright (hr.upright.still hs) hs.flow hs.depth

theorem moves {P : Permit} (hm : Moves P r r') (hfit : ∀ f, P.function f → f.Fit .lenient)
    (hflow : r'.flow = r.flow) : d.Ready r' :=
  hr.of_upright (hr.upright.moves hm hfit) hflow hm.depth

end Ready

end Departure

theorem Ensures.bind_of_ok {f : α → Exec β} {a : α} {Q : β → Run → Prop} {E : Halt → Run → Prop}
    (h : y.run.run r = (.ok a, r')) : Ensures (y >>= f) r Q E ↔ Ensures (f a) r' Q E := by
  unfold Ensures
  rw [run_bind_of_ok h]

namespace Departs

theorem mono (hx : Departs d N T S x y r) (hN : N → N') (hT : ∀ a r', T a r' → T' a r')
    (hS : ∀ r₁ a r', d.Left r₁ → N → S r₁ a r' → S' r₁ a r') : Departs d N' T' S' x y r := by
  refine Ensures.mono hx (fun a r' h => ⟨h.1, hT a r' h.2⟩) ?_
  rintro (f | _) r' h
  · exact h
  · intro hl
    obtain ⟨hn, hy⟩ := h hl
    exact ⟨hN hn, hy.mono (fun a r'' h => hS r' a r'' hl hn h) fun _ _ he => he⟩

theorem imp (hx : Departs d N T S x y r) (hT : ∀ a r', T a r' → T' a r') :
    Departs d N T' S x y r :=
  hx.mono id hT fun _ _ _ _ _ h => h

-- What is known of the second part alone may be used.
theorem given {P : α → Run → Prop} {E : Halt → Run → Prop} (hx : Departs d N T S x y r)
    (hy : Ensures y r P E) :
    Departs d N (fun a r' => T a r' ∧ P a r') (fun r₁ a r' => S r₁ a r' ∧ P a r') x y r := by
  refine Ensures.mono hx (fun a r' h => ⟨h.1, h.2, hy.of_ok h.1⟩) ?_
  rintro (f | _) r' h
  · exact h
  · exact fun hl => (h hl).imp_right fun hs => (hs.and hy).mono (fun _ _ h => h) fun _ _ he => he.1

theorem bind {f g : α → Exec β} (hx : Departs d N T S x y r)
    (hf : ∀ a r', T a r' → Departs d N U V (f a) (g a) r')
    (hs : ∀ r₁ a r', d.Left r₁ → N → S r₁ a r' → Ensures (g a) r' (V r₁) (d.Ends r₁)) :
    Departs d N U V (x >>= f) (y >>= g) r := by
  refine Ensures.bind (Ensures.mono hx (fun _ _ h => h) ?_) ?_
  · rintro (e | _) r' h
    · exact ⟨run_bind_of_error h.1, h.2⟩
    · intro hl
      obtain ⟨hn, hy⟩ := h hl
      exact ⟨hn, hy.bind fun a r'' h => hs r' a r'' hl hn h⟩
  · rintro a r' ⟨hy, ht⟩
    refine Ensures.mono (hf a r' ht) (fun b r'' h => ⟨(run_bind_of_ok hy).trans h.1, h.2⟩) ?_
    rintro (e | _) r'' h
    · exact ⟨(run_bind_of_ok hy).trans h.1, h.2⟩
    · exact fun hl => (h hl).imp_right (Ensures.bind_of_ok hy).mpr

-- A part in which nothing is looked at.
theorem same (hx : Ensures x r T fun e r' => (∃ f, e = .failure f) ∧ d.Stays r') :
    Departs d N T S x x r := by
  unfold Departs Ensures at *
  rcases hrun : x.run.run r with ⟨e | a, r'⟩ <;> rw [hrun] at hx
  · obtain ⟨⟨f, rfl⟩, hs⟩ := hx
    exact ⟨hrun, hs⟩
  · exact ⟨rfl, hx⟩

theorem pure {a : α} (ha : T a r) : Departs d N T S (Pure.pure a) (Pure.pure a) r :=
  same (Ensures.pure_iff.mpr ha)

theorem aside {P : α → Run → Prop} {E : Halt → Run → Prop} (hx : Aside x) (hs : d.Stays r)
    (hp : Ensures x r P E) :
    Departs d N (fun a r' => P a r' ∧ r'.flow = r.flow) S x x r :=
  same ((hp.and (hx r)).mono (fun _ _ h => h) fun _ _ he => ⟨he.2.1, hs.of_flow he.2.2⟩)

theorem aside_bind {f g : α → Exec β} {P : α → Run → Prop} {E : Halt → Run → Prop} (hx : Aside x)
    (hs : d.Stays r) (hp : Ensures x r P E)
    (hf : ∀ a r', P a r' → r'.flow = r.flow → Departs d N U V (f a) (g a) r') :
    Departs d N U V (x >>= f) (x >>= g) r :=
  (aside (S := fun _ _ _ => False) hx hs hp).bind (fun a r' h => hf a r' h.1 h.2)
    fun _ _ _ _ _ => False.elim

theorem jumpless (hx : Jumpless x) (hs : d.Stays r) : Departs d N (fun _ => d.Stays) S x x r :=
  same ((hx r).mono (fun _ _ h => hs.of_jumpless h) fun _ _ he => ⟨he.1, hs.of_jumpless he.2⟩)

theorem of_jumpless (hx : Jumpless x) (hs : d.Stays r) : Departs d N (fun _ _ => True) S x x r :=
  (jumpless hx hs).imp fun _ _ _ => trivial

theorem setFlow_bind {fl : Flow} {f g : Unit → Exec β}
    (hf : Departs d N U V (f ()) (g ()) { r with flow := fl }) :
    Departs d N U V (Exec.setFlow fl >>= f) (Exec.setFlow fl >>= g) r :=
  hf

theorem modifyMachine_bind {m : Machine → Machine} {f g : Unit → Exec β}
    (hf : Departs d N U V (f ()) (g ()) { r with machine := m r.machine }) :
    Departs d N U V (Exec.modifyMachine m >>= f) (Exec.modifyMachine m >>= g) r :=
  hf

theorem setKind_bind {k : FlowKind} {f g : Unit → Exec β}
    (hf : Departs d N U V (f ()) (g ()) { r with flow := r.flow.withKind k }) :
    Departs d N U V (Exec.setKind k >>= f) (Exec.setKind k >>= g) r :=
  hf

theorem fail {c : Cause} (hs : d.Stays r) : Departs d N T S (Exec.fail c) (Exec.fail c) r :=
  same ⟨⟨_, rfl⟩, hs⟩

theorem outOfFuel (hnext : r.flow.kind = .next) : Departs d N T S Exec.outOfFuel Exec.outOfFuel r :=
  fun hl => absurd hnext hl.ne_next

theorem get_bind {f g : Run → Exec β} (hf : Departs d N U V (f r) (g r) r) :
    Departs d N U V (MonadState.get >>= f) (MonadState.get >>= g) r :=
  hf

theorem flow_bind {f g : Flow → Exec β} (hf : Departs d N U V (f r.flow) (g r.flow) r) :
    Departs d N U V (Exec.flow >>= f) (Exec.flow >>= g) r :=
  hf

theorem setKind {k : FlowKind} {S : Run → Unit → Run → Prop} :
    Departs d N (fun _ _ => True) S (Exec.setKind k) (Exec.setKind k) r :=
  same (Exec.setKind_iff.mpr trivial)

-- A failure of the first part is one of the second.
theorem attempt_bind_of {P : α → Run → Prop} {E : Halt → Run → Prop} {f g : Except Failure α → Exec β}
    (hx : Departs d N T S x y r) (hy : Ensures y r P E)
    (hok : ∀ a r', T a r' → P a r' → Departs d N U V (f (.ok a)) (g (.ok a)) r')
    (herr : ∀ e r', d.Stays r' → E (.failure e) r' →
      Departs d N U V (f (.error e)) (g (.error e)) r')
    (hs : ∀ r₁ a r', d.Left r₁ → N → S r₁ a r' → Ensures (g (.ok a)) r' (V r₁) (d.Ends r₁)) :
    Departs d N U V (Exec.attempt x >>= f) (Exec.attempt y >>= g) r := by
  have hended : Departs d N (fun ended r' => (∀ a, ended = .ok a → T a r' ∧ P a r') ∧
        ∀ e, ended = .error e → d.Stays r' ∧ E (.failure e) r')
      (fun r₁ ended r' => ∃ a, ended = .ok a ∧ S r₁ a r') (Exec.attempt x) (Exec.attempt y) r := by
    rw [Departs, Exec.attempt_iff]
    refine Ensures.mono hx (fun a r' h => ⟨Exec.attempt_of_ok h.1, by simpa using ⟨h.2, hy.of_ok h.1⟩⟩) ?_
    rintro (e | _) r' h
    · exact ⟨Exec.attempt_of_failure h.1, by simpa using ⟨h.2, hy.of_error h.1⟩⟩
    · intro hl
      obtain ⟨hn, hy⟩ := h hl
      refine ⟨hn, Exec.attempt_iff.mpr (hy.mono (fun a r'' h => ⟨a, rfl, h⟩) ?_)⟩
      rintro _ r'' ⟨rfl, hstop⟩
      exact ⟨rfl, hstop⟩
  refine hended.bind ?_ ?_
  · rintro (e | a) r' h
    · obtain ⟨hs, he⟩ := h.2 e rfl
      exact herr e r' hs he
    · obtain ⟨ht, hp⟩ := h.1 a rfl
      exact hok a r' ht hp
  · rintro r₁ _ r' hl hn ⟨a, rfl, h⟩
    exact hs r₁ a r' hl hn h

-- A failure goes on to the same.
theorem attempt_bind {f : Except Failure α → Exec β} (hx : Departs d N T S x y r)
    (hok : ∀ a r', T a r' → Departs d N U V (f (.ok a)) (f (.ok a)) r')
    (herr : ∀ e r', d.Stays r' → Ensures (f (.error e)) r' (fun _ _ => False) fun e r'' =>
      (∃ f, e = .failure f) ∧ d.Stays r'')
    (hs : ∀ r₁ a r', d.Left r₁ → N → S r₁ a r' → Ensures (f (.ok a)) r' (V r₁) (d.Ends r₁)) :
    Departs d N U V (Exec.attempt x >>= f) (Exec.attempt y >>= f) r :=
  hx.attempt_bind_of .trivially (fun a r' h _ => hok a r' h)
    (fun e r' h _ => same ((herr e r' h).mono (fun _ _ => False.elim) fun _ _ he => he)) hs

theorem onFailure {cleanup : Exec Unit} (hx : Departs d N T S x y r) (hc : Aside cleanup) :
    Departs d N T S (Exec.onFailure x cleanup) (Exec.onFailure y cleanup) r := by
  refine hx.attempt_bind (fun a r' h => pure h) (fun e r' hs => ?_) fun r₁ a r' _ _ h => h
  exact Ensures.bind_iff.mpr ((hc r').mono (fun _ r'' h => ⟨⟨_, rfl⟩, hs.of_flow h⟩)
    fun _ _ he => ⟨he.1, hs.of_flow he.2⟩)

theorem located {s : Option Span} (hx : Departs d N T S x y r) :
    Departs d N T S (Exec.located s x) (Exec.located s y) r := by
  have hrun : ∀ {v : Except Halt α} {r' : Run}, y.run.run r = (v, r') →
      (Exec.located s y).run.run r = (v.mapError (Halt.locate s), r') := fun h => by
    rw [Exec.run_located, h]
  rw [Departs, Exec.located_iff]
  refine Ensures.mono hx (fun a r' h => ⟨hrun h.1, h.2⟩) ?_
  rintro (e | _) r' h
  · exact ⟨hrun h.1, h.2⟩
  · refine fun hl => (h hl).imp_right fun hy => Exec.located_iff.mpr (hy.mono (fun _ _ h => h) ?_)
    rintro _ r'' ⟨rfl, hstop⟩
    exact ⟨rfl, hstop⟩

end Departs

end FinLang

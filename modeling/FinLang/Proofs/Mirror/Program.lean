import FinLang.Proofs.Mirror.Call

namespace FinLang

open Exec
open Run (Twins)

variable {α β γ δ : Type} {ρ : Renaming} {m m' : Machine} {r r' : Run} {x : VarId} {scope : ScopeId}
  {self : Interpreter} {node : Node} {fuel : Nat}

namespace Interpreter

theorem keepLast_follows : Parallel ρ m m' id (keepLast x) (keepLast (ρ x)) := by
  refine get_bind_follows fun {r r'} hr => ?_
  have hlast : Twins ρ m m' { r with last := some x } { r' with last := some (ρ x) } :=
    ⟨{ hr.toMirrors with last := rfl }, ⟨hr.fine.sound, hr.fine.depth⟩,
      ⟨hr.fine'.sound, hr.fine'.depth⟩, hr.nested⟩
  refine Agree.bind (R := fun _ _ s s' => { r with last := some x } = s ∧ { r' with last := some (ρ x) } = s')
    (Agree.modify_iff.mpr ⟨rfl, rfl⟩) ?_
  rintro _ _ _ _ ⟨rfl, rfl⟩
  rw [hr.last]
  refine Agree.ite ?_ (fun _ => releaseOption_follows r.last _ _ hlast) fun _ => ⟨rfl, hlast⟩
  rw [bne_iff_ne, bne_iff_ne]
  exact not_congr (@option_map_inj ρ r.last (some x))

theorem topStatement_follows (hself : self.Blind ρ m m') :
    Parallel ρ m m' id (topStatement self scope node) (topStatement self (ρ scope) node) := by
  unfold topStatement
  split
  · refine (located_follows (hself.eval _ scope)).bind fun value => ?_
    cases value with
    | none => exact .pure rfl
    | some x => exact keepLast_follows
  · exact hself.exec node scope

theorem readOutcome_follows : Parallel ρ m m' id readOutcome readOutcome := by
  refine get_bind_follows fun {r r'} hr => ?_
  have htravels : (r'.flow.result <|> r'.last) = (r.flow.result <|> r.last).map ρ.handle := by
    rw [hr.flow, hr.last]
    cases h : r.flow.result <;> simp [Flow.rename, h]
  have hkind : completionOf r'.flow = completionOf r.flow := by rw [hr.flow]; rfl
  dsimp only
  rw [htravels, hkind]
  cases r.flow.result <|> r.last with
  | none => exact ⟨rfl, hr⟩
  | some x =>
    refine .ite (by rw [hr.store.heap.contains]) (fun _ => ?_) fun _ => ⟨rfl, hr⟩
    have hvalue : Parallel ρ m m' id (ofExcept (r.heap.toValue x)) (ofExcept (r'.heap.toValue (ρ x))) :=
      ofExcept_follows (hr.store.heap.toValue hr.fine.sound.heap hr.fine'.sound.heap)
    exact (hvalue r r' hr).next fun _ => .pure rfl

theorem runProgram_follows (hself : self.Blind ρ m m') (children : List Node) :
    Parallel ρ m m' id (runProgram self fuel children scope)
      (runProgram self fuel children (ρ scope)) := by
  have hbody : Parallel ρ m m' id
      (do
        runFrom (topStatement self scope) children fuel children
        leaveBody
        readOutcome)
      (do
        runFrom (topStatement self (ρ scope)) children fuel children
        leaveBody
        readOutcome) :=
    (runFrom_follows (fun _ => topStatement_follows hself) fuel children).bind fun _ =>
      leaveBody_follows.bind fun _ => readOutcome_follows
  have hdrop : ∀ {v v' : Except Failure Outcome}, Alike id v v' → Parallel ρ m m' id
      (do
        (← takeResult).forM release
        (← get).last.forM release
        ofExcept v)
      (do
        (← takeResult).forM release
        (← get).last.forM release
        ofExcept v') := by
    intro v v' hv
    refine takeResult_follows.bind fun o => (releaseOption_follows o).bind fun _ => ?_
    refine get_bind_follows fun {r r'} hr => ?_
    rw [hr.last]
    exact (releaseOption_follows r.last).bind (fun _ => ofExcept_follows hv) r r' hr
  exact attempt_bind_follows hbody (fun _ => hdrop rfl) fun _ _ hf => hdrop hf

theorem runTree_follows (hself : self.Blind ρ m m') (tree : Tree) :
    Parallel ρ m m' id (runTree self fuel tree scope) (runTree self fuel tree (ρ scope)) :=
  .ite .rfl (fun _ => fail_follows rfl) fun _ => .ite .rfl (fun _ => fail_follows rfl) fun _ =>
    .ite .rfl (fun _ => .pure rfl) fun _ => runProgram_follows hself tree.root.children

end Interpreter

namespace Machine

-- Two runs that have ended alike: with the same outcome, with failures of one
-- kind at one place, or with no fuel left.
def EndAlike : Except Halt Outcome → Except Halt Outcome → Prop
  | .ok a, .ok b => b = a
  | .error e, .error e' => e.Alike e'
  | _, _ => False

theorem start_alike {part part' : Exec Outcome}
    (h : Agree part part' m.idle m'.idle (fun a b s s' => b = a ∧ s.Mirrors ρ m m' s')
      fun e e' s s' => e.Alike e' ∧ s.Mirrors ρ m m' s') :
    EndAlike (m.start part).1 (m'.start part').1 ∧
      ∃ output console, m.Printed output console (m.start part).2 ∧
        m'.Printed output console (m'.start part').2 := by
  unfold Agree at h
  unfold start perform
  rcases hx : part.run.run m.idle with ⟨_ | _, s⟩ <;>
    rcases hy : part'.run.run m'.idle with ⟨_ | _, s'⟩ <;> rw [hx, hy] at h
  · exact ⟨h.1, h.2.printed⟩
  · exact h.elim
  · exact h.elim
  · exact ⟨h.1, h.2.printed⟩

-- Behind a program its scope goes.
theorem closeProgram_agree {n : ScopeId} {v v' : Except Failure Outcome} (hr : Twins ρ m m' r r')
    (hv : Alike id v v') :
    Agree
      (do
        let destroyed ← attempt (onStore (Store.destroy n))
        let outcome ← ofExcept v
        ofExcept destroyed
        return outcome)
      (do
        let destroyed ← attempt (onStore (Store.destroy (ρ n)))
        let outcome ← ofExcept v'
        ofExcept destroyed
        return outcome) r r' (fun a b s s' => b = a ∧ s.Mirrors ρ m m' s')
      fun e e' s s' => e.Alike e' ∧ s.Mirrors ρ m m' s' := by
  have hfinish : ∀ {w w' : Except Failure Unit} {s s' : Run}, Alike id w w' → s.Mirrors ρ m m' s' →
      Agree (do let outcome ← ofExcept v; ofExcept w; return outcome)
        (do let outcome ← ofExcept v'; ofExcept w'; return outcome) s s'
        (fun a b s s' => b = a ∧ s.Mirrors ρ m m' s') fun e e' s s' => e.Alike e' ∧ s.Mirrors ρ m m' s' := by
    intro w w' s s' hw hm
    cases v <;> cases v' <;> first | exact hv.elim | skip
    · exact ⟨hv, hm⟩
    · cases w <;> cases w' <;> first | exact hw.elim | skip
      · exact ⟨hw, hm⟩
      · exact ⟨hv, hm⟩
  refine Agree.bind ((attempt_agree (onStore_mirrors hr.toMirrors
    (Store.destroy_follows _ _ hr.store)) ?_).mono (fun _ _ _ _ h => h) ?_) ?_
  · rintro _ _ _ _ ⟨⟨f, f', rfl, rfl, hf⟩, -⟩
    exact hf
  · rintro _ _ _ _ ⟨⟨f, f', rfl, rfl, hf⟩, hm⟩
    exact ⟨hf, hm⟩
  · rintro (f | _) (f' | _) s s' hq
    · obtain ⟨⟨_, _, h, h', hf⟩, hm⟩ := hq
      cases h
      cases h'
      exact hfinish hf hm
    · exact hq.elim
    · exact hq.elim
    · exact hfinish rfl hq.2

-- Twins run a tree alike and print the same.
theorem run_alike (hr : Twins ρ m m' m.idle m'.idle) (fuel : Nat) (tree : Tree) :
    EndAlike (m.run fuel tree).1 (m'.run fuel tree).1 ∧
      ∃ output console, m.Printed output console (m.run fuel tree).2 ∧
        m'.Printed output console (m'.run fuel tree).2 := by
  have hrun : Agree
      (do
        let scope ← onStore (Store.createChild m.root "program")
        let outcome ← attempt ((Interpreter.ofFuel fuel).runTree fuel tree scope)
        let destroyed ← attempt (onStore (Store.destroy scope))
        let outcome ← ofExcept outcome
        ofExcept destroyed
        return outcome)
      (do
        let scope ← onStore (Store.createChild m'.root "program")
        let outcome ← attempt ((Interpreter.ofFuel fuel).runTree fuel tree scope)
        let destroyed ← attempt (onStore (Store.destroy scope))
        let outcome ← ofExcept outcome
        ofExcept destroyed
        return outcome) m.idle m'.idle (fun a b s s' => b = a ∧ s.Mirrors ρ m m' s')
      fun e e' s s' => e.Alike e' ∧ s.Mirrors ρ m m' s' := by
    have hroot : m'.root = ρ m.root := hr.root
    rw [hroot]
    refine Agree.bind ((createChild_agrees hr).mono (fun _ _ _ _ h => h) fun _ _ _ _ h =>
      ⟨h.1, h.2.toMirrors⟩) ?_
    rintro n _ s s' ⟨rfl, hs, -⟩
    refine Agree.bind ((attempt_agree (Interpreter.runTree_follows (Interpreter.ofFuel_blind fuel)
      tree s s' hs) fun he => he.1).mono (fun _ _ _ _ h => h) fun _ _ _ _ h => ⟨h.1, h.2.toMirrors⟩) ?_
    rintro (f | a) (f' | b) t t' hq
    · exact closeProgram_agree hq.2 hq.1
    · exact hq.elim
    · exact hq.elim
    · exact closeProgram_agree hq.2 hq.1
  exact start_alike hrun

end Machine

end FinLang

import FinLang.Proofs.Machine.Host

namespace FinLang

-- Failures that a lost handle brings about name a variable, never a scope.
def Cause.NoLostScope (c : Cause) : Prop :=
  c.kind = .missingValue → ∃ id, c = .staleVariable id

-- Failures that the shape of a tree brings about are a jump out of every loop,
-- or come from a `var` among the items of a group.
def Cause.WellShaped (c : Cause) : Prop :=
  c.kind = .readError → (∃ flow, c = .outsideLoop flow) ∨ (∃ text, c = .unexpectedInExpression text) ∨
    c = .notExpression "Declare"

theorem Cause.tolerant_noLostScope : Tolerant (fun _ => True) NoLostScope where
  ordinary hc hk := absurd hk hc.1
  outsideLoop _ := nofun
  word _ := nofun
  declaration _ := nofun

theorem Cause.tolerant_wellShaped : Tolerant (fun _ => True) WellShaped where
  ordinary hc hk := absurd hk hc.2
  outsideLoop flow _ := .inl ⟨flow, rfl⟩
  word _ _ := .inr (.inl ⟨_, rfl⟩)
  declaration _ _ := .inr (.inr rfl)

namespace Machine

variable {config : Config} {fuel : Nat} {source : String} {f : Failure} {admits : Cause → Prop}

theorem run_cause {D : Discipline} {m : Machine} {tree : Tree} (hloose : D.Loose)
    (ht : Interpreter.Runs D tree) (hr : m.store.Rests D)
    (hlive : ∃ sc, m.store.scope? m.root = some sc)
    (hf : (m.run fuel tree).1 = .error (.failure f)) : D.admits f.cause :=
  (run_ends hloose ht (Store.Rests.state (r := m.idle) hr (.inl hlive))).cause hf

-- What a parsed source may fail with on a new machine.
theorem run_admits (hadmits : Tolerant (fun _ => True) admits)
    (hloose : ∀ id, admits (.staleVariable id)) (hfine : (Tree.parse source).hasErrors = false)
    (hf : ((ofConfig config).run fuel (Tree.parse source)).1 = .error (.failure f)) :
    admits f.cause :=
  run_cause (D := .parsed _ admits hadmits) hloose (Discipline.parsed_runs hadmits (.inl hfine))
    (rests_ofConfig _ config).1 (live_root_ofConfig config) hf

-- Whether a run has failed in a given way.
def failsWith (p : Failure → Bool) : Except Halt Outcome → Bool
  | .error (.failure f) => p f
  | _ => false

theorem exists_of_failsWith (p : Failure → Bool) {r : Except Halt Outcome}
    (h : failsWith p r = true) : ∃ f, r = .error (.failure f) ∧ p f = true := by
  rcases r with (f | _) | _
  · exact ⟨f, rfl, h⟩
  · cases h
  · cases h

-- A scope is never lost while a program runs; a variable may be.
theorem run_noLostScope (hfine : (Tree.parse source).hasErrors = false)
    (hf : ((ofConfig config).run fuel (Tree.parse source)).1 = .error (.failure f)) :
    f.cause.NoLostScope :=
  run_admits Cause.tolerant_noLostScope (fun id _ => ⟨id, rfl⟩) hfine hf

example : failsWith (·.kind == .notFound) ((ofConfig {}).run 9 (Tree.parse "x;")).1 = true := by
  decide +kernel

theorem run_noLostScope_undefined : ∃ f,
    ((ofConfig {}).run 9 (Tree.parse "f() { return x; } f();")).1 = .error (.failure f) ∧
      f.cause.NoLostScope := by
  obtain ⟨f, hf, -⟩ := exists_of_failsWith (r := ((ofConfig {}).run 9 (Tree.parse
    "f() { return x; } f();")).1) (·.kind == .notFound) (by decide +kernel)
  exact ⟨f, hf, run_noLostScope (by decide +kernel) hf⟩

-- Parsed trees have the shape that the machine asks for, but for a stray `var`.
theorem run_wellShaped (hfine : (Tree.parse source).hasErrors = false)
    (hf : ((ofConfig config).run fuel (Tree.parse source)).1 = .error (.failure f)) :
    f.cause.WellShaped :=
  run_admits Cause.tolerant_wellShaped (fun _ => nofun) hfine hf

theorem strayWord_fails : (Tree.parse "(var);").hasErrors = false ∧
    failsWith (fun f => f.kind == .readError && f.message == "unexpected 'var' in expression")
      ((ofConfig {}).run 9 (Tree.parse "(var);")).1 = true := by
  decide +kernel

theorem run_wellShaped_stray : ∃ f,
    ((ofConfig {}).run 9 (Tree.parse "(var);")).1 = .error (.failure f) ∧ f.cause.WellShaped := by
  obtain ⟨hfine, hfails⟩ := strayWord_fails
  obtain ⟨f, hf, -⟩ := exists_of_failsWith _ hfails
  exact ⟨f, hf, run_wellShaped hfine hf⟩

-- Such a `var` is no complaint of the parser, and stops the program.
theorem run_stray_word : (Tree.parse "(var);").hasErrors = false ∧
    ∃ f, ((ofConfig {}).run 9 (Tree.parse "(var);")).1 = .error (.failure f) ∧
      f.kind = .readError ∧ f.message = "unexpected 'var' in expression" := by
  obtain ⟨hfine, hfails⟩ := strayWord_fails
  obtain ⟨f, hf, hp⟩ := exists_of_failsWith _ hfails
  simp only [Bool.and_eq_true, beq_iff_eq] at hp
  exact ⟨hfine, f, hf, hp⟩

end Machine

end FinLang

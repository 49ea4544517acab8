import FinLang.Machine.Interpreter

namespace FinLang

-- Where a run can be looked at: in front of every construct and behind it, and
-- likewise at the body of a call, which is one level deeper.
inductive Point where
  | eval (node : Node) (scope : ScopeId)
  | exec (node : Node) (scope : ScopeId)
  | call (f : Function) (args : Arguments) (caller : ScopeId)
  | body (f : Function) (scope : ScopeId)

variable {α : Type}

namespace Exec

-- Stops the run where it is, unless it may be there.
def pass (ok : Point → Run → Bool) (p : Point) : Exec Unit := do
  if ok p (← get) then pure () else outOfFuel

def watch (ok : Point → Run → Bool) (p : Point) (part : Exec α) : Exec α := do
  pass ok p
  let ended ← attempt part
  pass ok p
  ofExcept ended

theorem attempt_bind_ofExcept (part : Exec α) : (attempt part >>= ofExcept) = part := by
  funext r
  simp only [attempt, tryCatch, tryCatchThe, MonadExceptOf.tryCatch, ExceptT.tryCatch, bind,
    ExceptT.bind, ExceptT.mk, StateT.bind]
  rcases part r with ⟨(f | _) | a, r'⟩ <;> rfl

theorem watch_all (p : Point) (part : Exec α) : watch (fun _ _ => true) p part = part := by
  have hpass : pass (fun _ _ => true) p = pure () := rfl
  rw [watch, hpass]
  simp only [pure_bind]
  exact attempt_bind_ofExcept part

end Exec

namespace Interpreter

open Exec

-- The interpreter, which stops at the first point that is refused.
def watched (ok : Point → Run → Bool) : Nat → Interpreter
  | 0 => ofFuel 0
  | n + 1 =>
    { eval := fun node scope => watch ok (.eval node scope) (evalNode (watched ok n) node scope)
      exec := fun node scope => watch ok (.exec node scope) (execNode (watched ok n) n node scope)
      call := fun f args caller =>
        watch ok (.call f args caller) (enterCall f caller fun scope =>
          watch ok (.body f scope) (invoke (watched ok n) n f args caller scope)) }

-- Where nothing is refused it is the interpreter itself.
theorem watched_all (n : Nat) : watched (fun _ _ => true) n = ofFuel n := by
  induction n with
  | zero => rfl
  | succ n ih =>
    unfold watched ofFuel
    simp only [watch_all, ih]
    rfl

end Interpreter

end FinLang

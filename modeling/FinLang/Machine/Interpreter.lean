import FinLang.Machine.Call
import FinLang.Machine.Expression

namespace FinLang

namespace Interpreter

-- An interpreter that gives up where expressions, statements and calls are
-- nested, or a loop or list repeats, beyond its fuel.
def ofFuel : Nat → Interpreter
  | 0 => ⟨fun _ _ => Exec.outOfFuel, fun _ _ => Exec.outOfFuel, fun _ _ _ => Exec.outOfFuel⟩
  | n + 1 =>
    { eval := fun node scope => evalNode (ofFuel n) node scope
      exec := fun node scope => execNode (ofFuel n) n node scope
      call := fun f args caller => callFunction (ofFuel n) n f args caller }

end Interpreter

end FinLang

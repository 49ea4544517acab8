import FinLang.Machine.Run
import FinLang.Report

namespace FinLang

-- Why a source text gave no outcome.
inductive RunError where
  | invalid (ds : List Diagnostic)
  | halted (h : Halt)
deriving Inhabited

namespace RunError

def text : RunError → String
  | .invalid ds => toString ds.length ++ " syntax error(s)"
  | .halted (.failure f) => f.text
  | .halted .outOfFuel => "out of fuel"

def reports : RunError → List Report
  | .invalid ds => ds.map Report.ofDiagnostic
  | .halted (.failure f) => [Report.ofFailure f]
  | .halted .outOfFuel => []

end RunError

namespace Script

-- Trees with errors are refused.
def compile (source : String) : Except RunError Tree :=
  let tree := Tree.parse source
  if tree.hasErrors then .error (.invalid tree.errors) else .ok tree

-- Runs a source text in a scope of its own.
def evaluateOn (m : Machine) (fuel : Nat) (source : String) : Except RunError Outcome × Machine :=
  match compile source with
  | .error e => (.error e, m)
  | .ok tree =>
    let (result, m) := m.run fuel tree
    (result.mapError .halted, m)

def evaluate (fuel : Nat) (source : String) : Except RunError Outcome :=
  (evaluateOn (Machine.ofConfig {}) fuel source).1

def consoleText (lines : Array String) : String :=
  String.join (lines.toList.map (· ++ "\n"))

structure Options where
  config : Config := {}
  dumpTree : Bool := false
deriving Inhabited

-- How a script run ended and all that it wrote.
structure Transcript where
  ok : Bool
  text : String
deriving Inhabited

-- Runs a script for its effects. Problems are reported against the source.
def run (fuel : Nat) (source : String) (file : Option String) (options : Options) : Transcript :=
  let tree := Tree.parse source
  let dump := if options.dumpTree then tree.root.dump ++ "\n" else ""
  if tree.hasErrors then
    ⟨false, dump ++ Report.renderAll (tree.errors.map Report.ofDiagnostic) source file⟩
  else
    let (result, m) := (Machine.ofConfig { options.config with echo := true }).run fuel tree
    let shown := dump ++ consoleText m.console
    match result with
    | .ok _ => ⟨true, shown⟩
    | .error h => ⟨false, shown ++ Report.renderAll (RunError.halted h).reports source file⟩

end Script

end FinLang

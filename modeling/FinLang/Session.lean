import FinLang.Script

namespace FinLang

-- An interactive session: every line runs in one scope, so that declarations
-- last.
structure Session where
  machine : Machine
  scope : ScopeId
deriving Inhabited

namespace Session

def banner : String :=
  "FIN-script 0.1.0\nType 'quit' or press Ctrl+D to leave\n\n"

def prompt : String :=
  "fin> "

def start (config : Config) : Except Failure Session :=
  match (Machine.ofConfig { config with echo := true }).openSession with
  | (.ok scope, m) => .ok ⟨m, scope⟩
  | (.error f, _) => .error f

-- What a line brings about: text to show and whether the session goes on.
structure Reply where
  text : String
  goesOn : Bool
deriving Inhabited

-- A value is shown unless it is null.
def valueText (v : Value) : String :=
  match v with
  | .null => ""
  | v => v.text ++ "\n"

-- Hands over what has been printed since the last line.
def takeConsole (s : Session) : String × Session :=
  (Script.consoleText s.machine.console, { s with machine := { s.machine with console := #[] } })

def runSource (s : Session) (fuel : Nat) (source : String) : Reply × Session :=
  let tree := Tree.parse source
  if tree.hasErrors then
    (⟨Report.renderAll (tree.errors.map Report.ofDiagnostic) source none, true⟩, s)
  else
    let (result, m) := s.machine.runIn fuel tree s.scope
    let (printed, s) := takeConsole { s with machine := m }
    match result with
    | .ok outcome => (⟨printed ++ valueText outcome.value, outcome.completion != .exited⟩, s)
    | .error h =>
      (⟨printed ++ Report.renderAll (RunError.halted h).reports source none, true⟩, s)

-- Characters that do not count at the ends of a line.
def isBlank (c : Char) : Bool :=
  c == ' ' || ('\t' ≤ c && c ≤ '\r') || c == '\u0085' || c == '\u00a0' || c == '\u1680' ||
    ('\u2000' ≤ c && c ≤ '\u200a') || c == '\u2028' || c == '\u2029' || c == '\u202f' ||
    c == '\u205f' || c == '\u3000'

def trim (line : List Char) : List Char :=
  ((line.dropWhile isBlank).reverse.dropWhile isBlank).reverse

-- Empty lines are passed over; `quit` and `exit` end the session.
def enter (s : Session) (fuel : Nat) (line : List Char) : Reply × Session :=
  let line := trim line
  if line.isEmpty then (⟨"", true⟩, s)
  else if line == "quit".toList then (⟨"", false⟩, s)
  else s.runSource fuel (String.ofList line)

-- Input up to the first newline, and the rest.
def nextLine (input : List Char) : List Char × List Char :=
  (input.takeWhile (· != '\n'), (input.dropWhile (· != '\n')).drop 1)

theorem length_nextLine {input : List Char} (h : input ≠ []) :
    (nextLine input).2.length < input.length := by
  have hd := (List.dropWhile_sublist (l := input) (· != '\n')).length_le
  have := List.length_pos_iff.mpr h
  simp only [nextLine, List.length_drop]
  omega

-- Answers the lines of an input one after the other, up to its end.
def converse (s : Session) (fuel : Nat) (input : List Char) (shown : String) : String :=
  let shown := shown ++ prompt
  if h : input = [] then
    shown ++ "\n"
  else
    have := length_nextLine h
    let (reply, s) := s.enter fuel (nextLine input).1
    let shown := shown ++ reply.text
    if reply.goesOn then s.converse fuel (nextLine input).2 shown else shown
termination_by input.length

-- All that a session shows.
def transcript (config : Config) (fuel : Nat) (input : String) : String :=
  match start config with
  | .ok s => s.converse fuel input.toList banner
  | .error _ => banner

end Session

end FinLang

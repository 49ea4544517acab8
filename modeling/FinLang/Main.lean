import FinLang.CommandLine

open FinLang

namespace FinLang.Main

-- More than any run can use up.
def unlimited : Nat :=
  Nat.pow 2 62

def readEntry (path : String) : IO Folder.Entry := do
  try
    return .file (← IO.FS.readBinFile path)
  catch
    | .inappropriateType .. => return .directory
    | _ => return .missing

def write (text : String) : IO Unit := do
  let out ← IO.getStdout
  out.putStr text
  out.flush

-- Prompts for lines until the session or the input ends.
partial def converse (s : Session) : IO Unit := do
  write Session.prompt
  let line ← (← IO.getStdin).getLine
  if line.isEmpty then
    write "\n"
  else
    let (reply, s) := s.enter unlimited line.toList
    write reply.text
    if reply.goesOn then
      converse s

def interact (config : Config) : IO Unit := do
  write Session.banner
  match Session.start config with
  | .ok s => converse s
  | .error f => (← IO.getStderr).putStrLn ("Cannot open a session: " ++ f.text)

-- Writes an answer to the two output streams.
def deliver (a : CommandLine.Answer) : IO UInt32 := do
  write a.out
  (← IO.getStderr).putStr a.err
  return UInt32.ofNat a.code

end FinLang.Main

open FinLang.Main in
def main (args : List String) : IO UInt32 := do
  match CommandLine.parse args with
  | .interactive config =>
    interact config
    return 0
  | .script path _ =>
    let entry ← readEntry path
    deliver (CommandLine.run unlimited (fun _ => entry) "" args)
  | _ => deliver (CommandLine.run unlimited (fun _ => .missing) "" args)

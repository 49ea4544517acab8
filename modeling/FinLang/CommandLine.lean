import FinLang.Folder
import FinLang.Session

namespace FinLang

namespace CommandLine

-- What the arguments ask for.
inductive Command where
  | script (file : String) (options : Script.Options)
  | interactive (config : Config)
  | help
  | version
  -- The arguments make no sense.
  | refused
deriving Inhabited

structure Arguments where
  file : Option String := none
  interactive : Bool := false
  maxDepth : Option Nat := none
  dumpTree : Bool := false
deriving Inhabited

-- Reading stops early at a request for help or the version, and at the first
-- mistake, whichever comes first.
abbrev Reading := Except Command

-- Each argument may be given once.
def setFile (a : Arguments) (file : String) : Reading Arguments :=
  if a.file.isSome then .error .refused else .ok { a with file := some file }

def setInteractive (a : Arguments) : Reading Arguments :=
  if a.interactive then .error .refused else .ok { a with interactive := true }

def setDumpTree (a : Arguments) : Reading Arguments :=
  if a.dumpTree then .error .refused else .ok { a with dumpTree := true }

-- Decimal digits, perhaps behind a plus sign, for a number of 64 bits.
def depth? (text : String) : Option Nat :=
  let digits :=
    match text.toList with
    | '+' :: rest => rest
    | cs => cs
  if digits.isEmpty || !digits.all Char.isDigit then
    none
  else
    let n := digits.foldl (fun n d => n * 10 + (d.toNat - '0'.toNat)) 0
    if n < Nat.pow 2 64 then some n else none

def setMaxDepth (a : Arguments) (text : String) : Reading Arguments :=
  match a.maxDepth, depth? text with
  | none, some n => .ok { a with maxDepth := some n }
  | _, _ => .error .refused

-- Short flags may share one dash.
def shortFlags (a : Arguments) : List Char → Reading Arguments
  | [] => .ok a
  | 'i' :: rest => do shortFlags (← setInteractive a) rest
  | 'h' :: _ => .error .help
  | 'V' :: _ => .error .version
  | _ => .error .refused

def looksLikeFlag : List Char → Bool
  | '-' :: _ :: _ => true
  | _ => false

-- Behind a double dash everything is a file name.
def readFiles (a : Arguments) : List String → Reading Arguments
  | [] => .ok a
  | file :: rest => do readFiles (← setFile a file) rest

def depthOption : List Char :=
  "max-depth=".toList

def read (a : Arguments) : List String → Reading Arguments
  | [] => .ok a
  | "--" :: rest => readFiles a rest
  | "--interactive" :: rest => do read (← setInteractive a) rest
  | "--dump-ast" :: rest => do read (← setDumpTree a) rest
  | "--help" :: _ => .error .help
  | "--version" :: _ => .error .version
  | ["--max-depth"] => .error .refused
  | "--max-depth" :: value :: rest =>
    if looksLikeFlag value.toList then .error .refused
    else do read (← setMaxDepth a value) rest
  | arg :: rest =>
    match arg.toList with
    | '-' :: '-' :: long =>
      if depthOption.isPrefixOf long then do
        read (← setMaxDepth a (String.ofList (long.drop depthOption.length))) rest
      else
        .error .refused
    | '-' :: c :: cs => do read (← shortFlags a (c :: cs)) rest
    | _ => do read (← setFile a arg) rest

def commandOf (a : Arguments) : Command :=
  let config : Config := { maxCallDepth := a.maxDepth.getD 256 }
  match a.file, a.interactive with
  | some file, false => .script file { config := config, dumpTree := a.dumpTree }
  | _, _ => .interactive config

def parse (args : List String) : Command :=
  match read {} args with
  | .ok a => commandOf a
  | .error c => c

def versionText : String :=
  "fin 0.1.0\n"

def helpText : String :=
  "Interpreter for the FIN-script embedded scripting language\n\n" ++
  "Usage: fin [OPTIONS] [FILE]\n\n" ++
  "Arguments:\n" ++
  "  [FILE]  The script file to execute\n\n" ++
  "Options:\n" ++
  "  -i, --interactive    Start in interactive REPL mode\n" ++
  "      --max-depth <N>  Maximum nesting of function calls\n" ++
  "      --dump-ast       Print the syntax tree before running\n" ++
  "  -h, --help           Print help\n" ++
  "  -V, --version        Print version\n"

def usageText : String :=
  "error: invalid arguments\n\nUsage: fin [OPTIONS] [FILE]\n\nFor more information, try '--help'.\n"

-- Exit code and the text of the two output streams.
structure Answer where
  code : Nat
  out : String
  err : String
deriving Inhabited

def missingText (path : String) : String :=
  "Error: File '" ++ path ++ "' not found\n"

def unreadableText (path reason : String) : String :=
  "Error reading file '" ++ path ++ "': " ++ reason ++ "\n"

def directoryReason : String :=
  "Is a directory (os error 21)"

def encodingReason : String :=
  "stream did not contain valid UTF-8"

def runFile (fuel : Nat) (path : String) (entry : Folder.Entry) (options : Script.Options) :
    Answer :=
  match entry with
  | .missing => ⟨1, "", missingText path⟩
  | .directory => ⟨1, "", unreadableText path directoryReason⟩
  | .file bytes =>
    match String.fromUTF8? bytes with
    | none => ⟨1, "", unreadableText path encodingReason⟩
    | some source =>
      let t := Script.run fuel source (some path) options
      ⟨if t.ok then 0 else 1, t.text, ""⟩

-- The whole program, given the files and the standard input.
def run (fuel : Nat) (files : String → Folder.Entry) (input : String) (args : List String) :
    Answer :=
  match parse args with
  | .help => ⟨0, helpText, ""⟩
  | .version => ⟨0, versionText, ""⟩
  | .refused => ⟨2, "", usageText⟩
  | .script path options => runFile fuel path (files path) options
  | .interactive config => ⟨0, Session.transcript config fuel input, ""⟩

end CommandLine

end FinLang

import FinLang.Source.Diagnostic
import FinLang.Failure

namespace FinLang

namespace Source

-- Reports break lines at more characters than the scanner does.
def isLineBreak (c : Char) : Bool :=
  c == '\n' || c == '\r' || c == '\x0b' || c == '\x0c' || c == '\u0085' || c == '\u2028' ||
    c == '\u2029'

-- The offsets behind line breaks, where text follows. A carriage return and a
-- newline are one break.
def lineStartsFrom (offset : Nat) : List Char → List Nat
  | [] => []
  | [_] => []
  | '\r' :: '\n' :: rest =>
    if rest.isEmpty then [] else (offset + 2) :: lineStartsFrom (offset + 2) rest
  | c :: d :: rest =>
    let next := offset + c.utf8Size
    if isLineBreak c then next :: lineStartsFrom next (d :: rest)
    else lineStartsFrom next (d :: rest)

-- Row and column of an offset, both from one.
def locate? (source : String) (offset : Nat) : Option Position :=
  if source.utf8ByteSize < offset then
    none
  else
    let starts := (lineStartsFrom 0 source.toList).takeWhile (· ≤ offset)
    some ⟨starts.length + 1, offset - starts.getLast?.getD 0 + 1⟩

end Source

-- One problem as it is shown to the user.
structure Report where
  level : Level
  title : String
  message : String
  span : Option Span
  help : Option String
deriving Inhabited

namespace Report

def ofDiagnostic (d : Diagnostic) : Report :=
  { level := d.level
    title := match d.stage with
      | .scan => "Scan Error"
      | .parse => "Parse Error"
    message := d.message
    span := some d.span
    help := none }

def ofFailure (f : Failure) : Report :=
  { level := .error
    title := "Runtime Error"
    message := f.text
    span := f.span
    help := f.kind.help? }

def levelText : Level → String
  | .warning => "Warning"
  | .error => "Error"

def placeText (source : String) (offset : Nat) : String :=
  match Source.locate? source offset with
  | some p => toString p.row ++ ":" ++ toString p.column
  | none => "?:?"

def headline (r : Report) : String :=
  levelText r.level ++ ": " ++ r.title ++ ": " ++ r.message ++ "\n"

-- Where the problem is, and advice. Both need a place in the source.
def details (r : Report) (source : String) (file : Option String) : String :=
  match r.span with
  | none => ""
  | some s =>
    "At: " ++ file.getD "<repl>" ++ ":" ++ placeText source s.start ++ "\n" ++
      r.help.elim "" fun h => "Note: help: " ++ h ++ "\n"

def render (r : Report) (source : String) (file : Option String) : String :=
  r.headline ++ r.details source file

def renderAll (rs : List Report) (source : String) (file : Option String) : String :=
  String.join (rs.map fun r => r.render source file)

end Report

end FinLang

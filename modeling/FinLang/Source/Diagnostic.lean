import FinLang.Source.Span
import FinLang.Source.Complaint

namespace FinLang

inductive Stage where
  | scan
  | parse
deriving DecidableEq, Inhabited

inductive Level where
  | warning
  | error
deriving DecidableEq, Inhabited

-- A complaint and the place it is about. Diagnostics never stop the parser;
-- they collect on the tree so that all of them can be shown at once.
structure Diagnostic where
  stage : Stage
  level : Level
  position : Position
  span : Span
  complaint : Complaint
deriving DecidableEq, Inhabited

namespace Diagnostic

def scanError (p : Position) (s : Span) (c : Complaint) : Diagnostic :=
  ⟨.scan, .error, p, s, c⟩

def parseError (p : Position) (s : Span) (c : Complaint) : Diagnostic :=
  ⟨.parse, .error, p, s, c⟩

def isError (d : Diagnostic) : Bool :=
  d.level == .error

def message (d : Diagnostic) : String :=
  d.complaint.text

def text (d : Diagnostic) : String :=
  toString d.position.row ++ ":" ++ toString d.position.column ++ ": " ++ d.message

-- Diagnostics are listed in reading order; those at one place keep the order
-- in which they were found.
def sort (ds : List Diagnostic) : List Diagnostic :=
  ds.mergeSort fun a b => a.position.le b.position

end Diagnostic

end FinLang

import FinLang.Source.Lines
import FinLang.Token.Scanner
import FinLang.Tree.Builder

namespace FinLang

-- A parsed program: its root, the lines of its source and every complaint.
structure Tree where
  root : Node
  lines : List String
  errors : List Diagnostic
deriving Inhabited

namespace Tree

-- Lines count from one.
def line? (t : Tree) (row : Nat) : Option String :=
  if row = 0 then none else t.lines[row - 1]?

def hasErrors (t : Tree) : Bool :=
  t.errors.any Diagnostic.isError

end Tree

namespace Builder

def finish (b : Builder) (source : String) (extra : List Diagnostic) : Tree :=
  let b := b.closeLast source.utf8ByteSize
  let errors := leftoverErrors b.innermostBracket?.isSome b.errors b.stack.reverse
  ⟨b.program, Source.lines source, Diagnostic.sort (errors.reverse ++ extra)⟩

end Builder

namespace Tree

def parse (source : String) : Tree :=
  let scan := Scan.ofSource source
  let built := Builder.empty.pushTokens (scan.tokens.map Prod.fst)
  let built := scan.fatal.elim built built.record
  built.finish source scan.warnings

end Tree

end FinLang

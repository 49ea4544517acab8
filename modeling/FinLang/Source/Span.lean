namespace FinLang

-- A byte range of the source text.
structure Span where
  start : Nat
  stop : Nat
deriving DecidableEq, Inhabited

namespace Span

-- The range of one byte; end-of-input markers and empty slots use it.
def single (offset : Nat) : Span :=
  ⟨offset, offset + 1⟩

def zero : Span :=
  ⟨0, 0⟩

end Span

-- Rows and columns count from one, columns in bytes. A node without any
-- located part stands at row 0, column 0.
structure Position where
  row : Nat
  column : Nat
deriving DecidableEq, Inhabited

namespace Position

def start : Position :=
  ⟨1, 1⟩

def unknown : Position :=
  ⟨0, 0⟩

-- Only a newline starts a row; every other character moves the column on by
-- its encoded size.
def step (p : Position) (c : Char) : Position :=
  if c = '\n' then ⟨p.row + 1, 1⟩ else ⟨p.row, p.column + c.utf8Size⟩

def advance (p : Position) (cs : List Char) : Position :=
  cs.foldl step p

-- Reading order: by row, then by column.
def le (p q : Position) : Bool :=
  p.row < q.row || (p.row == q.row && p.column ≤ q.column)

end Position

-- Bytes that a run of characters takes.
def byteLength (cs : List Char) : Nat :=
  cs.foldl (fun n c => n + c.utf8Size) 0

end FinLang

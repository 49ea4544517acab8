namespace FinLang

-- A string literal as read from behind its opening quote.
structure Quoted where
  contents : List Char
  -- Characters taken, the closing quote included.
  length : Nat
  closed : Bool
deriving DecidableEq, Inhabited

namespace Quoted

def unescape : Char → Char
  | 'n' => '\n'
  | 't' => '\t'
  | c => c

def behind (taken : Nat) (c : Char) (q : Quoted) : Quoted :=
  ⟨c :: q.contents, q.length + taken, q.closed⟩

-- A literal ends at its closing quote, or, unclosed, at the end of its line.
-- A backslash with nothing behind it on the line stands for nothing.
def read : List Char → Quoted
  | [] => ⟨[], 0, false⟩
  | '"' :: _ => ⟨[], 1, true⟩
  | '\n' :: _ => ⟨[], 0, false⟩
  | ['\\'] => ⟨[], 1, false⟩
  | '\\' :: '\n' :: _ => ⟨[], 1, false⟩
  | '\\' :: c :: rest => behind 2 (unescape c) (read rest)
  | c :: rest => behind 1 c (read rest)

end Quoted

end FinLang

import FinLang.Source.Diagnostic
import FinLang.Token.Basic
import FinLang.Token.Numeral
import FinLang.Token.Quoted

namespace FinLang

-- What the scanner looks for first. Behind a value it expects an operator,
-- behind an operator a value: this tells `a -1` from `a * -1` and the two
-- meanings of `!` apart.
inductive ReadOrder where
  | numberFirst
  | operatorFirst
deriving DecidableEq, Inhabited

-- A token before it is given a place.
structure Lexeme where
  kind : TokenKind
  length : Nat
  length_pos : 0 < length

namespace Lexeme

def isBlank (c : Char) : Bool :=
  c == ' ' || c == '\t' || c == '\n' || c == '\x0c' || c == '\r'

def isNameStart (c : Char) : Bool :=
  c.isAlpha || c == '_'

def isNamePart (c : Char) : Bool :=
  c.isAlphanum || c == '_'

-- The length of a block comment's inside together with its closing mark.
def blockLength? : List Char → Option Nat
  | '*' :: '/' :: _ => some 2
  | _ :: rest => (blockLength? rest).map (· + 1)
  | [] => none

inductive CommentRead where
  | absent
  | found (lexeme : Lexeme)
  | unterminated

def comment : List Char → CommentRead
  | '/' :: '/' :: rest =>
    .found ⟨.comment, 2 + (rest.takeWhile (· != '\n')).length, Nat.add_pos_left Nat.two_pos _⟩
  | '/' :: '*' :: rest =>
    match blockLength? rest with
    | some n => .found ⟨.comment, 2 + n, Nat.add_pos_left Nat.two_pos _⟩
    | none => .unterminated
  | _ => .absent

def number? (cs : List Char) : Option Lexeme :=
  match h : Numeral.read? cs with
  | some (n, _) => some ⟨.decimal n.value, n.chars.length, Numeral.length_chars_pos h⟩
  | none => none

def string? : List Char → Option (Lexeme × Bool)
  | '"' :: rest =>
    let q := Quoted.read rest
    let contents := String.ofList q.contents
    some (⟨.string contents, 1 + q.length, Nat.add_pos_left Nat.one_pos _⟩, q.closed)
  | _ => none

def name? : List Char → Option Lexeme
  | c :: rest =>
    if isNameStart c then
      let more := rest.takeWhile isNamePart
      let kind := (Keyword.ofText? (String.ofList (c :: more))).elim .variable TokenKind.keyword
      some ⟨kind, 1 + more.length, Nat.add_pos_left Nat.one_pos _⟩
    else
      none
  | [] => none

-- The longest symbol wins.
def symbol? : List Char → Option Lexeme
  | [] => none
  | [c] => (Operator.ofChar c).map fun op => ⟨.operator op, 1, by omega⟩
  | c :: d :: _ =>
    match Operator.ofPair c d with
    | some op => some ⟨.operator op, 2, by omega⟩
    | none => (Operator.ofChar c).map fun op => ⟨.operator op, 1, by omega⟩

-- Without a value before it, `!` negates.
def operator? (order : ReadOrder) (cs : List Char) : Option Lexeme :=
  (symbol? cs).map fun l =>
    match l.kind, order with
    | .operator .factorial, .numberFirst => { l with kind := .operator .logicNot }
    | _, _ => l

-- The lexeme at the front of the text, and whether it is a complete one.
def read? (order : ReadOrder) (cs : List Char) : Option (Lexeme × Bool) :=
  let whole := Option.map fun (l : Lexeme) => (l, true)
  match order with
  | .numberFirst =>
    whole (number? cs) <|> string? cs <|> whole (name? cs) <|> whole (operator? order cs)
  | .operatorFirst =>
    whole (operator? order cs) <|> string? cs <|> whole (name? cs) <|> whole (number? cs)

end Lexeme

namespace ReadOrder

def after (order : ReadOrder) : TokenKind → ReadOrder
  | .decimal _ | .string _ | .variable => .operatorFirst
  | .keyword _ => .numberFirst
  | .comment | .dummy => order
  | .operator .rightParen | .operator .rightBracket | .operator .factorial => .operatorFirst
  -- `x++` is still followed by an operator, `++x` by a value.
  | .operator .postIncrement | .operator .postDecrement => order
  | .operator _ => .numberFirst

end ReadOrder

structure Scanner where
  rest : List Char
  offset : Nat
  position : Position
  order : ReadOrder
deriving Inhabited

namespace Scanner

def start (source : List Char) : Scanner :=
  ⟨source, 0, Position.start, .numberFirst⟩

-- Moves past the first `n` characters.
def advance (s : Scanner) (n : Nat) : Scanner :=
  let taken := s.rest.take n
  { s with
    rest := s.rest.drop n
    offset := s.offset + byteLength taken
    position := s.position.advance taken }

def skipBlanks (s : Scanner) : Scanner :=
  s.advance (s.rest.takeWhile Lexeme.isBlank).length

def spanTo (s next : Scanner) : Span :=
  ⟨s.offset, next.offset⟩

def place (s : Scanner) (l : Lexeme) : Token :=
  ⟨l.kind, String.ofList (s.rest.take l.length), s.position, s.spanTo (s.advance l.length)⟩

-- The outcome of reading one token: the token with the scanner behind it and,
-- for a string that is not closed, a complaint; or a complaint that ends the
-- scan.
inductive Step where
  | done
  | token (t : Token) (next : Scanner) (warning : Option Diagnostic)
  | fatal (d : Diagnostic)

def complain (s : Scanner) (length : Nat) (c : Complaint) : Diagnostic :=
  Diagnostic.scanError s.position (s.spanTo (s.advance length)) c

-- Reads the token that starts right here.
def readToken (s : Scanner) : Step :=
  match s.rest with
  | [] => .done
  | c :: _ =>
    match Lexeme.comment s.rest with
    | .found l => .token (s.place l) (s.advance l.length) none
    | .unterminated => .fatal (s.complain s.rest.length .unterminatedComment)
    | .absent =>
      match Lexeme.read? s.order s.rest with
      | some (l, complete) =>
        let next := { s.advance l.length with order := s.order.after l.kind }
        let warning :=
          if complete then none else some (s.complain l.length .unterminatedString)
        .token (s.place l) next warning
      | none => .fatal (s.complain 1 (.unexpectedCharacter c))

def next (s : Scanner) : Step :=
  s.skipBlanks.readToken

theorem length_advance (s : Scanner) (n : Nat) :
    (s.advance n).rest.length = s.rest.length - n := by
  simp [advance]

-- A token takes at least one character.
theorem length_readToken {s next : Scanner} {t : Token} {w : Option Diagnostic}
    (h : s.readToken = .token t next w) : next.rest.length < s.rest.length := by
  unfold readToken at h
  split at h
  · cases h
  · rename_i c cs hrest
    split at h
    · rename_i l _
      cases h
      rw [length_advance, hrest]
      have := l.length_pos
      simp only [List.length_cons]
      omega
    · cases h
    · split at h
      · rename_i l _ _
        cases h
        simp only [length_advance, hrest]
        have := l.length_pos
        simp only [List.length_cons]
        omega
      · cases h

theorem length_next {s next : Scanner} {t : Token} {w : Option Diagnostic}
    (h : s.next = .token t next w) : next.rest.length < s.rest.length := by
  have := length_readToken h
  simp only [skipBlanks, length_advance] at this
  omega

end Scanner

-- A whole scan: each token with the read order behind it, the complaint that
-- ended the scan early, and the complaints that did not.
structure Scan where
  tokens : List (Token × ReadOrder)
  fatal : Option Diagnostic
  warnings : List Diagnostic
deriving Inhabited

namespace Scan

def push (t : Token) (order : ReadOrder) (w : Option Diagnostic) (s : Scan) : Scan :=
  ⟨(t, order) :: s.tokens, s.fatal, w.toList ++ s.warnings⟩

end Scan

namespace Scanner

def scan (s : Scanner) : Scan :=
  match h : s.next with
  | .done => ⟨[], none, []⟩
  | .fatal d => ⟨[], some d, []⟩
  | .token t next w =>
    have := length_next h
    next.scan.push t next.order w
termination_by s.rest.length

end Scanner

namespace Scan

def ofSource (source : String) : Scan :=
  (Scanner.start source.toList).scan

end Scan

end FinLang

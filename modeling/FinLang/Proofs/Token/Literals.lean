import FinLang.Proofs.Token.Layout

namespace FinLang

namespace Quoted

-- How a character is written between quotes. Only what `unescape` knows and the
-- characters that mean something there are escaped.
def escape : Char → List Char
  | '\\' => ['\\', '\\']
  | '"' => ['\\', '"']
  | '\n' => ['\\', 'n']
  | '\t' => ['\\', 't']
  | c => [c]

def literal (s : String) : String :=
  String.ofList ('"' :: (s.toList.flatMap escape ++ ['"']))

theorem escape_cases (c : Char) :
    (∃ d, escape c = ['\\', d] ∧ d ≠ '\n' ∧ unescape d = c) ∨
      escape c = [c] ∧ c ≠ '\\' ∧ c ≠ '"' ∧ c ≠ '\n' := by
  unfold escape
  split
  · exact .inl ⟨'\\', rfl, by decide, rfl⟩
  · exact .inl ⟨'"', rfl, by decide, rfl⟩
  · exact .inl ⟨'n', rfl, by decide, rfl⟩
  · exact .inl ⟨'t', rfl, by decide, rfl⟩
  · rename_i hslash hquote hline _
    exact .inr ⟨rfl, hslash, hquote, hline⟩

theorem read_escape (c : Char) (rest : List Char) :
    read (escape c ++ rest) = behind (escape c).length c (read rest) := by
  rcases escape_cases c with ⟨d, hescape, hd, hc⟩ | ⟨hescape, hslash, hquote, hline⟩
  · rw [hescape, List.cons_append, List.singleton_append, read_backslash hd, hc]
    rfl
  · rw [hescape, List.singleton_append, read_plain hslash hquote hline]
    rfl

-- Induction over the text: its first character is read and the rest is read behind
-- it, up to the one quote that no backslash hides.
theorem read_escaped (cs after : List Char) :
    read (cs.flatMap escape ++ '"' :: after) = ⟨cs, (cs.flatMap escape).length + 1, true⟩ := by
  induction cs with
  | nil => rfl
  | cons c cs ih =>
    rw [List.flatMap_cons, List.append_assoc, read_escape, ih, behind, List.length_append]
    simp only [mk.injEq, and_true, true_and]
    omega

theorem newline_notMem_escape (c : Char) : '\n' ∉ escape c := by
  rcases escape_cases c with ⟨d, hescape, hd, -⟩ | ⟨hescape, -, -, hline⟩
  · simp [hescape, hd.symm]
  · simp [hescape, hline.symm]

theorem toList_literal (s : String) :
    (literal s).toList = '"' :: (s.toList.flatMap escape ++ ['"']) :=
  String.toList_ofList

-- A literal stays on its line.
theorem newline_notMem_literal (s : String) : '\n' ∉ (literal s).toList := by
  simp [toList_literal, newline_notMem_escape]

end Quoted

namespace Position

-- Without a newline, each byte is a column.
theorem advance_line {cs : List Char} (h : '\n' ∉ cs) (p : Position) :
    p.advance cs = ⟨p.row, p.column + byteLength cs⟩ := by
  induction cs generalizing p with
  | nil => rfl
  | cons c cs ih =>
    rw [List.mem_cons, not_or] at h
    rw [advance, List.foldl_cons, ← advance, ih h.2, step, if_neg (Ne.symm h.1), byteLength_cons,
      Nat.add_assoc]

end Position

namespace Lexeme

open Quoted

-- Nothing but a string begins with a quote.
theorem read_quote (order : ReadOrder) (cs : List Char) :
    read? order ('"' :: cs) = string? ('"' :: cs) := by
  have hnumber : number? ('"' :: cs) = none := number_none.mpr rfl
  have hsymbol : symbol? ('"' :: cs) = none := by
    cases cs <;> rfl
  obtain ⟨l, hstring⟩ : ∃ l, string? ('"' :: cs) = some l := ⟨_, rfl⟩
  cases order <;> simp [read?, hnumber, operator?, hsymbol, hstring]

-- The lexeme a literal is read as: all of it, and nothing behind it.
def ofLiteral (s : String) : Lexeme :=
  ⟨.string s, (literal s).toList.length, by simp [toList_literal]⟩

theorem string_literal (s : String) (after : List Char) :
    string? ((literal s).toList ++ after) = some (ofLiteral s, true) := by
  simp only [ofLiteral, toList_literal, List.cons_append, List.append_assoc, List.nil_append, string?,
    read_escaped, String.ofList_toList, List.length_cons, List.length_append, List.length_nil]
  simp [Nat.add_comm]

end Lexeme

namespace Scanner

open Quoted

variable {s : Scanner} {cs : List Char} {l : Lexeme}

-- No blank and no comment begins with a quote.
theorem next_of_quote (hrest : s.rest = '"' :: cs)
    (h : Lexeme.string? ('"' :: cs) = some (l, true)) :
    s.next = .token (s.place l) { s.advance l.length with order := s.order.after l.kind } none := by
  have hblank : s.rest.takeWhile Lexeme.isBlank = [] := by
    rw [hrest]
    rfl
  have hcomment : Lexeme.comment s.rest = .absent := by
    rw [hrest]
    rfl
  have hread : Lexeme.read? s.order s.rest = some (l, true) := by
    rw [hrest, Lexeme.read_quote, h]
  rw [Scanner.next, skipBlanks_self hblank, readToken_of_read (by simp [hrest]) hcomment hread]

-- A string written as a literal is read back, whatever was read before it and
-- whatever comes behind it.
theorem next_literal (text : String) (after : List Char) (offset : Nat) (p : Position)
    (order : ReadOrder) :
    Scanner.next ⟨(literal text).toList ++ after, offset, p, order⟩ =
      .token ⟨.string text, literal text, p, ⟨offset, offset + (literal text).utf8ByteSize⟩⟩
        ⟨after, offset + (literal text).utf8ByteSize,
          ⟨p.row, p.column + (literal text).utf8ByteSize⟩, .operatorFirst⟩ none := by
  obtain ⟨cs, hcs⟩ : ∃ cs, (literal text).toList ++ after = '"' :: cs :=
    ⟨_, by rw [toList_literal, List.cons_append]⟩
  have hstring : Lexeme.string? ('"' :: cs) = some (Lexeme.ofLiteral text, true) :=
    hcs ▸ Lexeme.string_literal text after
  rw [next_of_quote (s := ⟨(literal text).toList ++ after, offset, p, order⟩) hcs hstring]
  simp [place, spanTo, advance, Lexeme.ofLiteral, ReadOrder.after, byteLength_toList,
    Position.advance_line (newline_notMem_literal text)]

end Scanner

end FinLang

import FinLang.Token.Scanner

namespace FinLang

namespace Numeral

variable {cs rest ds whole : List Char} {c : Char} {n : Numeral}

theorem readSign_append (cs : List Char) : (readSign cs).1.toList ++ (readSign cs).2 = cs := by
  unfold readSign
  split
  · split <;> rfl
  · rfl

theorem readDigits_append (cs : List Char) : (readDigits cs).1 ++ (readDigits cs).2 = cs :=
  List.takeWhile_append_dropWhile

theorem readFraction_append (whole cs : List Char) :
    ((readFraction whole cs).1.elim [] fun ds => '.' :: ds) ++ (readFraction whole cs).2 = cs := by
  unfold readFraction
  split
  · rename_i rest
    simp only
    split
    · rfl
    · exact congrArg (List.cons '.') (readDigits_append rest)
  · rfl

theorem readExponent_append (cs : List Char) :
    (readExponent cs).1.elim [] Exponent.chars ++ (readExponent cs).2 = cs := by
  unfold readExponent
  split
  · rename_i c rest
    split
    · simp only
      split
      · rfl
      · simp only [Option.elim_some, Exponent.chars, List.cons_append, List.append_assoc,
          readDigits_append, readSign_append]
    · rfl
  · rfl

-- A number is spelt by the text it is read from.
theorem chars_append (h : read? cs = some (n, rest)) : n.chars ++ rest = cs := by
  unfold read? at h
  simp only at h
  split at h
  · cases h
  · cases h
    simp only [chars, List.append_assoc, readExponent_append, readFraction_append,
      readDigits_append, readSign_append]

-- Behind a sign, a number goes on with a digit or a point.
theorem head_of_sign (hc : isSign c = true) (h : read? (c :: cs) = some (n, rest)) :
    ∃ d ds, cs = d :: ds ∧ (d.isDigit = true ∨ d = '.') := by
  cases cs with
  | nil => simp [read?, readSign, hc, readDigits, readFraction] at h
  | cons d ds =>
    refine ⟨d, ds, rfl, Decidable.byContradiction fun hnot => ?_⟩
    obtain ⟨hdigit, hpoint⟩ := not_or.mp hnot
    have hwhole : readDigits (d :: ds) = ([], d :: ds) := by simp [readDigits, hdigit]
    have hfraction : readFraction [] (d :: ds) = (none, d :: ds) := by
      unfold readFraction
      split
      · rename_i heq
        cases heq
        exact absurd rfl hpoint
      · rfl
    simp [read?, readSign, hc, hwhole, hfraction] at h

end Numeral

namespace Lexeme

variable {cs : List Char} {order : ReadOrder} {l : Lexeme} {complete : Bool}

-- Only a comment is read as one, and nothing is read as an empty slot.
theorem kind_of_comment (h : comment cs = .found l) : l.kind = .comment := by
  unfold comment at h
  split at h
  · cases h; rfl
  · split at h
    · cases h; rfl
    · cases h
  · cases h

-- What a lexeme of a text in a given read order can be.
def Fits (order : ReadOrder) (l : Lexeme) : Prop :=
  l.kind ≠ .dummy ∧ (l.kind = .operator .factorial → order = .operatorFirst)

theorem fits_number (h : number? cs = some l) : l.Fits order := by
  unfold number? at h
  split at h
  · cases h
    exact ⟨nofun, nofun⟩
  · cases h

theorem fits_string (h : string? cs = some (l, complete)) : l.Fits order := by
  unfold string? at h
  split at h
  · cases h
    exact ⟨nofun, nofun⟩
  · cases h

theorem fits_name (h : name? cs = some l) : l.Fits order := by
  unfold name? at h
  split at h
  · split at h
    · cases h
      cases Keyword.ofText? _ <;> simp [Fits]
    · cases h
  · cases h

theorem kind_of_symbol (h : symbol? cs = some l) : ∃ op, l.kind = .operator op := by
  unfold symbol? at h
  split at h
  · cases h
  · obtain ⟨op, -, rfl⟩ := Option.map_eq_some_iff.mp h
    exact ⟨op, rfl⟩
  · split at h
    · cases h
      exact ⟨_, rfl⟩
    · obtain ⟨op, -, rfl⟩ := Option.map_eq_some_iff.mp h
      exact ⟨op, rfl⟩

theorem fits_operator (h : operator? order cs = some l) : l.Fits order := by
  obtain ⟨m, hm, rfl⟩ := Option.map_eq_some_iff.mp h
  obtain ⟨op, hop⟩ := kind_of_symbol hm
  cases order with
  | operatorFirst => exact ⟨by simp [hop], fun _ => rfl⟩
  | numberFirst =>
    split
    · exact ⟨nofun, nofun⟩
    · rename_i hnot
      exact ⟨by simp [hop], fun hbang => absurd rfl (hnot hbang)⟩

theorem fits_read (h : read? order cs = some (l, complete)) : l.Fits order := by
  have hwhole : ∀ {o : Option Lexeme}, (∀ m, o = some m → m.Fits order) →
      o.map (fun m => (m, true)) = some (l, complete) → l.Fits order := by
    rintro o ho heq
    obtain ⟨m, hm, hpair⟩ := Option.map_eq_some_iff.mp heq
    cases hpair
    exact ho _ hm
  unfold read? at h
  cases order <;>
  · simp only [Option.orElse_eq_orElse, Option.orElse_eq_or, Option.or_eq_some_iff] at h
    grind [fits_number, fits_string, fits_name, fits_operator]

-- Where a number is looked for first, it takes the sign before it.
theorem read_number {n : Numeral} {rest : List Char} (h : Numeral.read? cs = some (n, rest)) :
    read? .numberFirst cs =
      some (⟨.decimal n.value, n.chars.length, Numeral.length_chars_pos h⟩, true) := by
  have hnumber : number? cs =
      some ⟨.decimal n.value, n.chars.length, Numeral.length_chars_pos h⟩ := by
    unfold number?
    split
    · rename_i heq
      cases h.symm.trans heq
      rfl
    · rename_i heq
      cases h.symm.trans heq
  simp [read?, hnumber]

def signOperator (c : Char) : Operator :=
  if c = '-' then .sub else .add

theorem sign_cases {c : Char} (h : Numeral.isSign c = true) : c = '+' ∨ c = '-' := by
  simpa [Numeral.isSign] using h

-- Where an operator is looked for first, the sign stands alone.
theorem read_sign {c : Char} {n : Numeral} {rest : List Char} (hc : Numeral.isSign c = true)
    (h : Numeral.read? (c :: cs) = some (n, rest)) :
    read? .operatorFirst (c :: cs) =
      some (⟨.operator (signOperator c), 1, Nat.one_pos⟩, true) := by
  obtain ⟨d, ds, rfl, hd⟩ := Numeral.head_of_sign hc h
  have hne : d ≠ '+' ∧ d ≠ '-' := by
    rcases hd with hd | rfl
    · constructor <;> rintro rfl <;> revert hd <;> decide
    · decide
  have hpair : Operator.ofPair c d = none := by
    rcases sign_cases hc with rfl | rfl <;> simp [Operator.ofPair, hne]
  have hsymbol : symbol? (c :: d :: ds) = some ⟨.operator (signOperator c), 1, Nat.one_pos⟩ := by
    rcases sign_cases hc with rfl | rfl <;> simp only [symbol?, hpair] <;> rfl
  simp [read?, operator?, hsymbol]

-- The meaning of a lone `!` depends on nothing but the read order.
theorem read_bang (hcs : cs.head? ≠ some '=') :
    read? order ('!' :: cs) = some
      (⟨.operator (if order = .operatorFirst then .factorial else .logicNot), 1, Nat.one_pos⟩,
        true) := by
  have hsymbol : symbol? ('!' :: cs) = some ⟨.operator .factorial, 1, Nat.one_pos⟩ := by
    cases cs with
    | nil => rfl
    | cons d ds =>
      have hpair : Operator.ofPair '!' d = none := by
        have : d ≠ '=' := fun h => hcs (congrArg some h)
        simp [Operator.ofPair, this]
      simp only [symbol?, hpair]
      rfl
  have hnumber : number? ('!' :: cs) = none := by
    have hread : Numeral.read? ('!' :: cs) = none := rfl
    unfold number?
    split
    · rename_i heq
      cases hread.symm.trans heq
    · rfl
  cases order with
  | numberFirst =>
    have hname : name? ('!' :: cs) = none := rfl
    simp [read?, hnumber, string?, hname, operator?, hsymbol]
  | operatorFirst => simp [read?, operator?, hsymbol]

end Lexeme

namespace Scanner

variable {s next : Scanner} {t : Token} {w : Option Diagnostic} {c : Char} {cs : List Char}

-- A token fits the read order it is read in, and sets the next one.
theorem order_next (h : s.next = .token t next w) :
    t.kind ≠ .dummy ∧ (t.kind = .operator .factorial → s.order = .operatorFirst) ∧
      next.order = s.order.after t.kind := by
  unfold Scanner.next readToken at h
  split at h
  · cases h
  · split at h
    · rename_i hcomment
      cases h
      have hkind := Lexeme.kind_of_comment hcomment
      simp only [place, hkind]
      exact ⟨nofun, nofun, rfl⟩
    · cases h
    · split at h
      · rename_i hread
        cases h
        obtain ⟨hdummy, hbang⟩ := Lexeme.fits_read hread
        exact ⟨hdummy, hbang, rfl⟩
      · cases h

-- What the next token is when the text behind the blanks is read whole.
theorem next_of_read {l : Lexeme} (hrest : s.skipBlanks.rest = c :: cs) (hc : c ≠ '/')
    (hread : Lexeme.read? s.order (c :: cs) = some (l, true)) :
    ∃ t next, s.next = .token t next none ∧ t.kind = l.kind ∧
      t.text = String.ofList ((c :: cs).take l.length) := by
  have hcomment : Lexeme.comment (c :: cs) = .absent := by
    unfold Lexeme.comment
    split <;> first | rfl | simp_all
  have horder : s.skipBlanks.order = s.order := rfl
  unfold Scanner.next readToken
  simp only [hrest, hcomment, horder, hread, if_true]
  exact ⟨_, _, rfl, rfl, by simp only [place, hrest]⟩

-- The scanners of one scan, each with the tokens read before it.
inductive Reached (source : List Char) : List Token → Scanner → Prop where
  | start : Reached source [] (.start source)
  | next {ts : List Token} {s next : Scanner} {t : Token} {w : Option Diagnostic}
      (h : Reached source ts s) (hnext : s.next = .token t next w) : Reached source (ts ++ [t]) next

theorem scan_of_token (h : s.next = .token t next w) :
    s.scan.tokens.map Prod.fst = t :: next.scan.tokens.map Prod.fst := by
  rw [scan]
  split
  · rename_i hnext
    cases h.symm.trans hnext
  · rename_i hnext
    cases h.symm.trans hnext
  · rename_i hnext
    cases h.symm.trans hnext
    rfl

theorem Reached.scan {source : List Char} {ts : List Token} (h : Reached source ts s) :
    (Scanner.start source).scan.tokens.map Prod.fst = ts ++ s.scan.tokens.map Prod.fst := by
  induction h with
  | start => rfl
  | next h hnext ih => rw [ih, scan_of_token hnext, List.append_assoc, List.singleton_append]

end Scanner

end FinLang

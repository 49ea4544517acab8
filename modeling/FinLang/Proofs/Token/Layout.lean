import FinLang.Proofs.Token.Orders
import FinLang.Proofs.Token.Tiling

namespace FinLang

-- Blanks and complete comments, each line comment with its newline.
inductive Filler : List Char → Prop where
  | nil : Filler []
  | blank {c : Char} {cs : List Char} (hc : Lexeme.isBlank c = true) (h : Filler cs) : Filler (c :: cs)
  | line {body cs : List Char} (hbody : '\n' ∉ body) (h : Filler ('\n' :: cs)) :
      Filler ('/' :: '/' :: body ++ '\n' :: cs)
  | block {body cs : List Char} (hbody : ¬ ['*', '/'] <:+: body) (h : Filler cs) :
      Filler ('/' :: '*' :: body ++ '*' :: '/' :: cs)

-- What may stand in front of any token without touching it or its neighbour.
structure Trivia (cs : List Char) : Prop where
  filler : Filler cs
  first : ∃ c ∈ cs.head?, Lexeme.isBlank c = true

-- The text with something put in front of its bytes, counted from an offset.
def respace (gap : Nat → List Char) (offset : Nat) : List Char → List Char
  | [] => []
  | c :: cs => gap offset ++ c :: respace gap (offset + c.utf8Size) cs

-- A text that first departs from another one by a blank in front of something
-- else.
inductive Spread : List Char → List Char → Prop where
  | nil : Spread [] []
  | blank {b c : Char} {cs ds : List Char} (hb : Lexeme.isBlank b = true) (hc : Lexeme.isBlank c = false) :
      Spread (c :: cs) (b :: ds)
  | cons {c : Char} {cs ds : List Char} (h : Spread cs ds) : Spread (c :: cs) (c :: ds)

variable {cs ds w r r' : List Char} {c : Char}

theorem Spread.append (h : Spread r r') (w : List Char) : Spread (w ++ r) (w ++ r') := by
  induction w with
  | nil => exact h
  | cons c w ih => exact .cons ih

-- Characters of a class without blanks are taken as before.
theorem Spread.takeWhile {p : Char → Bool} (hp : ∀ b, Lexeme.isBlank b = true → p b = false)
    (h : Spread r r') (hr : r.takeWhile p = []) : r'.takeWhile p = [] := by
  cases h with
  | nil => rfl
  | blank hb _ => rw [List.takeWhile_cons, hp _ hb]; rfl
  | @cons c =>
    rw [List.takeWhile_cons] at hr ⊢
    cases hc : p c <;> simp [hc] at hr ⊢

-- A new line stays where it is.
theorem Spread.newline (h : Spread r r') (hr : r.takeWhile (· != '\n') = []) :
    r'.takeWhile (· != '\n') = [] := by
  cases h with
  | nil => rfl
  | @blank b c _ _ _ hc =>
    by_cases hn : c = '\n'
    · subst hn
      cases hc
    · simp [hn] at hr
  | @cons c =>
    rw [List.takeWhile_cons] at hr ⊢
    cases hc : c != '\n' <;> simp [hc] at hr ⊢

section Taking

variable {p : Char → Bool}

theorem takeWhile_split (p : Char → Bool) (cs : List Char) : ∃ w r, cs = w ++ r ∧
    cs.takeWhile p = w ∧ cs.dropWhile p = r ∧ (∀ c ∈ w, p c = true) ∧ r.takeWhile p = [] := by
  refine ⟨_, _, List.takeWhile_append_dropWhile.symm, rfl, rfl,
    fun c hc => List.all_eq_true.mp List.all_takeWhile c hc, ?_⟩
  cases hd : cs.dropWhile p with
  | nil => rfl
  | cons d ds =>
    have := List.head?_dropWhile_not p cs
    rw [hd] at this
    simp_all

theorem takeWhile_of_all (hw : ∀ c ∈ w, p c = true) (hr : r.takeWhile p = []) :
    (w ++ r).takeWhile p = w := by
  rw [List.takeWhile_append_of_pos hw, hr, List.append_nil]

theorem dropWhile_of_all (hw : ∀ c ∈ w, p c = true) (hr : r.takeWhile p = []) :
    (w ++ r).dropWhile p = r := by
  have := List.takeWhile_append_dropWhile (p := p) (l := w ++ r)
  rw [takeWhile_of_all hw hr] at this
  exact List.append_cancel_left this

end Taking

namespace Numeral

variable {n : Numeral} {rest whole : List Char} {frac : Option (List Char)} {exp : Option Exponent}

theorem isDigit_of_blank {b : Char} (hb : Lexeme.isBlank b = true) : b.isDigit = false := by
  simp only [Lexeme.isBlank, Bool.or_eq_true, beq_iff_eq] at hb
  rcases hb with (((rfl | rfl) | rfl) | rfl) | rfl <;> rfl

theorem readDigits_split (cs : List Char) : ∃ w r, cs = w ++ r ∧ readDigits cs = (w, r) ∧
    ∀ {r'}, Spread r r' → readDigits (w ++ r') = (w, r') := by
  obtain ⟨w, r, rfl, htake, hdrop, hw, hr⟩ := takeWhile_split Char.isDigit cs
  refine ⟨w, r, rfl, Prod.ext htake hdrop, fun h => ?_⟩
  have hr' := h.takeWhile (fun _ => isDigit_of_blank) hr
  exact Prod.ext (takeWhile_of_all hw hr') (dropWhile_of_all hw hr')

theorem readFraction_split (whole cs : List Char) :
    ∃ frac r, cs = (frac.elim [] fun ds => '.' :: ds) ++ r ∧ readFraction whole cs = (frac, r) ∧
      ∀ {r'}, Spread r r' → readFraction whole ((frac.elim [] fun ds => '.' :: ds) ++ r') = (frac, r') := by
  unfold readFraction
  split
  · rename_i rest
    obtain ⟨w, r, rfl, hread, hspread⟩ := readDigits_split rest
    simp only [hread]
    split
    · rename_i hempty
      refine ⟨none, '.' :: (w ++ r), rfl, rfl, fun h => ?_⟩
      have hw : w = [] := by simp_all
      subst hw
      cases h with
      | blank hb _ =>
        simp only [Option.elim_none, List.nil_append]
        split
        · rename_i heq
          cases heq
          exact absurd hb (by decide)
        · rfl
      | cons h =>
        have := hspread h
        simp only [Option.elim_none, List.nil_append] at this ⊢
        simp only [this, hempty, if_true]
    · rename_i hempty
      exact ⟨some w, r, rfl, rfl, fun h => by simp [hspread h, hempty]⟩
  · rename_i hno
    refine ⟨none, cs, rfl, rfl, fun h => ?_⟩
    simp only [Option.elim_none, List.nil_append]
    split
    · cases h with
      | blank hb _ => exact absurd hb (by decide)
      | cons h => exact absurd rfl (hno _)
    · rfl

theorem readSign_split (cs : List Char) : ∃ sign u, cs = sign.toList ++ u ∧ readSign cs = (sign, u) ∧
    ∀ {u'}, u.head? = u'.head? → readSign (sign.toList ++ u') = (sign, u') := by
  unfold readSign
  split
  · rename_i c rest
    split
    · rename_i hc
      exact ⟨some c, rest, rfl, rfl, fun _ => by simp [hc]⟩
    · rename_i hc
      refine ⟨none, c :: rest, rfl, rfl, fun {u'} h => ?_⟩
      cases u' with
      | nil => cases h
      | cons d ds =>
        cases h
        simp [hc]
  · refine ⟨none, [], rfl, rfl, fun {u'} h => ?_⟩
    cases u' with
    | nil => rfl
    | cons d ds => cases h

theorem head?_append_left {p : List Char} (hp : p ≠ []) (r r' : List Char) :
    (p ++ r).head? = (p ++ r').head? := by
  cases p with
  | nil => exact absurd rfl hp
  | cons c p => rfl

theorem readExponent_cons (hmark : (c == 'e' || c == 'E') = true) (rest : List Char) :
    readExponent (c :: rest) =
      if (readDigits (readSign rest).2).1.isEmpty then (none, c :: rest)
      else (some ⟨c, (readSign rest).1, (readDigits (readSign rest).2).1⟩,
        (readDigits (readSign rest).2).2) := by
  simp only [readExponent, hmark, if_true]

theorem isSign_of_blank {b : Char} (hb : Lexeme.isBlank b = true) : isSign b = false := by
  simp only [Lexeme.isBlank, Bool.or_eq_true, beq_iff_eq] at hb
  rcases hb with (((rfl | rfl) | rfl) | rfl) | rfl <;> rfl

-- No digit comes up behind a sign.
theorem digitless (h : Spread cs ds) (hcs : (readDigits (readSign cs).2).1 = []) :
    (readDigits (readSign ds).2).1 = [] := by
  cases h with
  | nil => rfl
  | blank hb _ => simp [readSign, isSign_of_blank hb, readDigits, isDigit_of_blank hb]
  | @cons c cs ds h =>
    unfold readSign at hcs ⊢
    simp only at hcs ⊢
    split
    · rename_i hc
      rw [if_pos hc] at hcs
      exact h.takeWhile (fun _ => isDigit_of_blank) hcs
    · rename_i hc
      rw [if_neg hc] at hcs
      exact (Spread.cons h).takeWhile (fun _ => isDigit_of_blank) hcs

theorem readExponent_none {cs : List Char} (h : (readExponent cs).1 = none) (hs : Spread cs ds) :
    readExponent ds = (none, ds) := by
  cases hs with
  | nil => rfl
  | @blank b _ _ _ hb =>
    have hmark : (b == 'e' || b == 'E') = false := by
      simp only [Lexeme.isBlank, Bool.or_eq_true, beq_iff_eq] at hb
      rcases hb with (((rfl | rfl) | rfl) | rfl) | rfl <;> rfl
    simp [readExponent, hmark]
  | @cons c rest _ hs =>
    cases hmark : c == 'e' || c == 'E' with
    | false => simp [readExponent, hmark]
    | true =>
      rw [readExponent_cons hmark] at h ⊢
      split at h
      · rename_i hempty
        rw [if_pos (List.isEmpty_iff.mpr (digitless hs (List.isEmpty_iff.mp hempty)))]
      · cases h

theorem readExponent_split (cs : List Char) :
    ∃ exp r, cs = exp.elim [] Exponent.chars ++ r ∧ readExponent cs = (exp, r) ∧
      ∀ {r'}, Spread r r' → readExponent (exp.elim [] Exponent.chars ++ r') = (exp, r') := by
  have happend := readExponent_append cs
  cases hexp : readExponent cs with
  | mk exp r =>
    cases exp with
    | none =>
      rw [hexp] at happend
      cases happend
      have hexp : readExponent r = (none, r) := hexp
      exact ⟨none, r, rfl, rfl, fun h => readExponent_none (by rw [hexp]) h⟩
    | some exp =>
      refine ⟨some exp, r, by rw [hexp] at happend; exact happend.symm, rfl, fun {r'} h => ?_⟩
      obtain ⟨mark, sign, digits⟩ := exp
      cases cs with
      | nil => cases hexp
      | cons c rest =>
        obtain ⟨sign', u, rfl, hsign, hsign'⟩ := readSign_split rest
        obtain ⟨w, r₀, rfl, hdigits, hdigits'⟩ := readDigits_split u
        cases hmark : c == 'e' || c == 'E' with
        | false => simp [readExponent, hmark] at hexp
        | true =>
          rw [readExponent_cons hmark, hsign, hdigits] at hexp
          split at hexp
          · cases hexp
          · rename_i hw
            cases hexp
            have hw' : w ≠ [] := by simpa using hw
            have hs := hsign' (head?_append_left hw' r₀ r')
            rw [Option.elim_some, Exponent.chars, List.cons_append, List.append_assoc,
              readExponent_cons hmark, hs, hdigits' h, if_neg hw]

theorem read?_eq (cs : List Char) : read? cs =
    (let (sign, unsigned) := readSign cs
     let (whole, afterWhole) := readDigits unsigned
     let (fraction, afterFraction) := readFraction whole afterWhole
     if whole.isEmpty && fraction.isNone then none
     else some (⟨sign, whole, fraction, (readExponent afterFraction).1⟩, (readExponent afterFraction).2)) :=
  rfl

-- A number is read as before when something comes behind it,
theorem read_spread (h : read? cs = some (n, rest)) (hs : Spread rest ds) :
    read? (n.chars ++ ds) = some (n, ds) := by
  obtain ⟨sign, u, rfl, hsign, hsign'⟩ := readSign_split cs
  obtain ⟨whole, a, rfl, hwhole, hwhole'⟩ := readDigits_split u
  obtain ⟨frac, b, rfl, hfrac, hfrac'⟩ := readFraction_split whole a
  obtain ⟨exp, r, rfl, hexp, hexp'⟩ := readExponent_split b
  rw [read?_eq, hsign] at h
  simp only [hwhole, hfrac, hexp] at h
  split at h
  · cases h
  · rename_i hsome
    cases h
    have hne : whole ++ (frac.elim [] fun ds => '.' :: ds) ≠ [] := by
      rintro heq
      obtain ⟨rfl, hf⟩ := List.append_eq_nil_iff.mp heq
      cases frac with
      | none => simp at hsome
      | some => cases hf
    have hs1 := hs.append (exp.elim [] Exponent.chars)
    have hs2 := hs1.append (frac.elim [] fun ds => '.' :: ds)
    have hhead := head?_append_left hne (exp.elim [] Exponent.chars ++ rest)
      (exp.elim [] Exponent.chars ++ ds)
    simp only [List.append_assoc] at hhead
    rw [read?_eq]
    simp only [chars, List.append_assoc]
    simp only [hsign' hhead, hwhole' hs2, hfrac' hs1, hexp' hs, if_neg hsome]

-- and there is none where there was none.
theorem read_none (h : read? (c :: cs) = none) (hs : Spread cs ds) : read? (c :: ds) = none := by
  have hunsigned : ∀ {us vs : List Char} {sign : Option Char}, readSign (c :: cs) = (sign, us) →
      readSign (c :: ds) = (sign, vs) → Spread us vs → read? (c :: ds) = none := by
    intro us vs sign hus hvs hs
    obtain ⟨whole, a, rfl, hwhole, hwhole'⟩ := readDigits_split us
    obtain ⟨frac, b, rfl, hfrac, hfrac'⟩ := readFraction_split whole a
    rw [read?_eq, hus] at h
    simp only [hwhole, hfrac] at h
    split at h
    · rename_i hnone
      obtain ⟨hw, hf⟩ := Bool.and_eq_true_iff.mp hnone
      obtain rfl := List.isEmpty_iff.mp hw
      obtain rfl := Option.isNone_iff_eq_none.mp hf
      rw [read?_eq, hvs]
      have h1 := hwhole' hs
      have h2 := hfrac' hs
      simp only [List.nil_append, Option.elim_none] at h1 h2
      simp [h1, h2]
    · cases h
  cases hc : isSign c with
  | true =>
    have hsign : ∀ us, readSign (c :: us) = (some c, us) := fun us => by simp [readSign, hc]
    exact hunsigned (hsign cs) (hsign ds) hs
  | false =>
    have hsign : ∀ us, readSign (c :: us) = (none, c :: us) := fun us => by simp [readSign, hc]
    exact hunsigned (hsign cs) (hsign ds) (.cons hs)

end Numeral

theorem Quoted.read_backslash {d : Char} {rest : List Char} (h : d ≠ '\n') :
    read ('\\' :: d :: rest) = behind 2 (unescape d) (read rest) :=
  read.eq_6 d rest h

theorem Quoted.read_plain {c : Char} {rest : List Char} (hslash : c ≠ '\\') (hquote : c ≠ '"')
    (hline : c ≠ '\n') : read (c :: rest) = behind 1 c (read rest) :=
  read.eq_7 c rest hquote hline (fun h => absurd h hslash) (fun _ h => absurd h hslash)
    fun _ _ h => absurd h hslash

-- A literal that is closed does not depend on what follows it.
theorem Quoted.read_closed (h : (read cs).closed = true) :
    ∃ w r, cs = w ++ r ∧ w.length = (read cs).length ∧ ∀ r', read (w ++ r') = read cs := by
  fun_induction read cs with
  | case1 | case3 | case4 | case5 => cases h
  | case2 rest => exact ⟨['"'], rest, rfl, rfl, fun _ => by simp [read]⟩
  | case6 c rest hnewline ih =>
    obtain ⟨w, r, rfl, hlength, hread⟩ := ih h
    refine ⟨'\\' :: c :: w, r, rfl, by simp [behind, hlength], fun r' => ?_⟩
    rw [List.cons_append, List.cons_append, read_backslash hnewline, hread]
  | case7 c rest hquote hnewline hlast hescape hescaped ih =>
    obtain ⟨w, r, rfl, hlength, hread⟩ := ih h
    have hback : c ≠ '\\' := by
      rintro rfl
      cases hrest : w ++ r with
      | nil => exact hlast rfl hrest
      | cons d ds => exact hescaped d ds rfl hrest
    refine ⟨c :: w, r, rfl, by simp [behind, hlength], fun r' => ?_⟩
    rw [List.cons_append, read_plain hback hquote hnewline, hread]

namespace Lexeme

variable {l : Lexeme} {n : Nat} {order : ReadOrder}

theorem blockLength_split (h : blockLength? cs = some n) :
    ∃ w r, cs = w ++ r ∧ w.length = n ∧ w ≠ [] ∧ ∀ r', blockLength? (w ++ r') = some n := by
  fun_induction blockLength? cs generalizing n with
  | case1 rest =>
    cases h
    exact ⟨['*', '/'], rest, rfl, rfl, nofun, fun _ => by simp [blockLength?]⟩
  | case2 c rest hno ih =>
    obtain ⟨m, hm, rfl⟩ := Option.map_eq_some_iff.mp h
    obtain ⟨w, r, rfl, hlength, hne, hread⟩ := ih hm
    refine ⟨c :: w, r, rfl, by simp [hlength], nofun, fun r' => ?_⟩
    cases w with
    | nil => exact absurd rfl hne
    | cons d w =>
      rw [List.cons_append, blockLength?.eq_2 _ _ fun rest hc hrest => ?_, hread]
      · rfl
      · cases hrest
        exact hno _ hc rfl
  | case3 => cases h

-- A reader that a blank behind what it reads does not disturb.
structure Firm (f : List Char → Option (Lexeme × Bool)) : Prop where
  none : ∀ {c cs ds}, f (c :: cs) = none → Spread cs ds → f (c :: ds) = none
  some : ∀ {cs l}, f cs = some (l, true) → ∃ w r, cs = w ++ r ∧ w.length = l.length ∧
    ∀ {r'}, Spread r r' → f (w ++ r') = some (l, true)

theorem Firm.orElse {f g : List Char → Option (Lexeme × Bool)} (hf : Firm f) (hg : Firm g) :
    Firm fun cs => f cs <|> g cs where
  none {c cs ds} h hs := by
    simp only [Option.orElse_eq_orElse, Option.orElse_eq_or, Option.or_eq_none_iff] at h ⊢
    exact ⟨hf.none h.1 hs, hg.none h.2 hs⟩
  some {cs l} h := by
    simp only [Option.orElse_eq_orElse, Option.orElse_eq_or, Option.or_eq_some_iff] at h ⊢
    rcases h with h | ⟨hnone, h⟩
    · obtain ⟨w, r, heq, hlength, hread⟩ := hf.some h
      exact ⟨w, r, heq, hlength, fun hs => .inl (hread hs)⟩
    · obtain ⟨w, r, rfl, hlength, hread⟩ := hg.some h
      refine ⟨w, r, rfl, hlength, fun hs => .inr ⟨?_, hread hs⟩⟩
      cases w with
      | nil =>
        have := l.length_pos
        rw [← hlength] at this
        cases this
      | cons c w => exact hf.none hnone (hs.append w)

theorem number_of_read {n : Numeral} (h : Numeral.read? cs = some (n, r)) :
    number? cs = some ⟨.decimal n.value, n.chars.length, Numeral.length_chars_pos h⟩ := by
  unfold number?
  split
  · rename_i heq
    cases h.symm.trans heq
    rfl
  · rename_i heq
    cases h.symm.trans heq

theorem number_none : number? cs = none ↔ Numeral.read? cs = none := by
  unfold number?
  split
  · simp_all
  · simp_all

theorem firm_number : Firm fun cs => (number? cs).map (·, true) where
  none {c cs ds} h hs := by
    simp only [Option.map_eq_none_iff, number_none] at h ⊢
    exact Numeral.read_none h hs
  some {cs l} h := by
    obtain ⟨m, hm, hl⟩ := Option.map_eq_some_iff.mp h
    cases hl
    cases hread : Numeral.read? cs with
    | none => rw [number_none.2 hread] at hm; cases hm
    | some pair =>
      obtain ⟨n, r⟩ := pair
      cases (number_of_read hread).symm.trans hm
      refine ⟨n.chars, r, (Numeral.chars_append hread).symm, rfl, fun hs => ?_⟩
      rw [number_of_read (Numeral.read_spread hread hs)]
      rfl

theorem firm_string : Firm string? where
  none {c cs ds} h hs := by
    unfold string? at h ⊢
    split at h
    · cases h
    · rename_i hquote
      split
      · rename_i heq
        cases heq
        exact absurd rfl (hquote cs)
      · rfl
  some {cs l} h := by
    unfold string? at h
    split at h
    · rename_i rest
      have hclosed : (Quoted.read rest).closed = true := by
        simp only [Option.some.injEq, Prod.mk.injEq] at h
        exact h.2
      obtain ⟨w, r, rfl, hlength, hread⟩ := Quoted.read_closed hclosed
      refine ⟨'"' :: w, r, rfl, ?_, fun {r'} _ => ?_⟩
      · obtain ⟨rfl, -⟩ := Prod.mk.inj (Option.some.inj h)
        simp only [List.length_cons, hlength]
        omega
      · rw [← h, List.cons_append, string?]
        simp only [hread]
    · cases h

theorem isNamePart_of_blank {b : Char} (hb : isBlank b = true) : isNamePart b = false := by
  simp only [isBlank, Bool.or_eq_true, beq_iff_eq] at hb
  rcases hb with (((rfl | rfl) | rfl) | rfl) | rfl <;> rfl

theorem firm_name : Firm fun cs => (name? cs).map (·, true) where
  none {c cs ds} h hs := by
    unfold name? at h ⊢
    simp only at h ⊢
    split at h
    · cases h
    · rename_i hc
      rw [if_neg hc]
      rfl
  some {cs l} h := by
    obtain ⟨m, hm, hl⟩ := Option.map_eq_some_iff.mp h
    cases hl
    unfold name? at hm
    split at hm
    · rename_i c rest
      split at hm
      · rename_i hc
        obtain ⟨w, r, rfl, htake, -, hw, hr⟩ := takeWhile_split isNamePart rest
        refine ⟨c :: w, r, rfl, ?_, fun {r'} hs => ?_⟩
        · cases hm
          simp only [htake, List.length_cons]
          omega
        · have hread := takeWhile_of_all hw (hs.takeWhile (fun _ => isNamePart_of_blank) hr)
          have hname : name? (c :: (w ++ r')) = some l := by
            rw [← hm, name?, if_pos hc]
            simp only [hread, htake]
          simp only [List.cons_append, hname]
          rfl
      · cases hm
    · cases hm

theorem ofPair_blank {b : Char} (hb : isBlank b = true) (c : Char) : Operator.ofPair c b = none := by
  unfold Operator.ofPair
  split <;> first | rfl | exact absurd hb (by decide)

def single (c : Char) : Option Lexeme :=
  (Operator.ofChar c).map fun op => ⟨.operator op, 1, Nat.one_pos⟩

theorem symbol_cons (c : Char) (cs : List Char) :
    (symbol? (c :: cs) = single c ∧ ∀ {ds}, Spread cs ds → symbol? (c :: ds) = single c) ∨
      ∃ d rest op, cs = d :: rest ∧ ∀ r', symbol? (c :: d :: r') = some ⟨.operator op, 2, Nat.two_pos⟩ := by
  cases cs with
  | nil => exact .inl ⟨rfl, fun hs => by cases hs; rfl⟩
  | cons d rest =>
    cases hpair : Operator.ofPair c d with
    | some op => exact .inr ⟨d, rest, op, rfl, fun r' => by simp only [symbol?, hpair]⟩
    | none =>
      refine .inl ⟨by simp only [symbol?, hpair]; rfl, fun hs => ?_⟩
      cases hs with
      | blank hb _ => simp only [symbol?, ofPair_blank hb]; rfl
      | cons hs => simp only [symbol?, hpair]; rfl

theorem firm_symbol : Firm fun cs => (symbol? cs).map (·, true) where
  none {c cs ds} h hs := by
    simp only [Option.map_eq_none_iff] at h ⊢
    rcases symbol_cons c cs with ⟨hsingle, hspread⟩ | ⟨d, rest, op, rfl, hpair⟩
    · rw [hspread hs, ← hsingle, h]
    · rw [hpair] at h
      cases h
  some {cs l} h := by
    obtain ⟨m, hm, hl⟩ := Option.map_eq_some_iff.mp h
    cases hl
    cases cs with
    | nil => cases hm
    | cons c cs =>
      rcases symbol_cons c cs with ⟨hsingle, hspread⟩ | ⟨d, rest, op, rfl, hpair⟩
      · rw [hsingle] at hm
        refine ⟨[c], cs, rfl, ?_, fun hs => ?_⟩
        · obtain ⟨op, -, rfl⟩ := Option.map_eq_some_iff.mp hm
          rfl
        · simp only [List.singleton_append, hspread hs, hm]
          rfl
      · cases (hpair rest).symm.trans hm
        exact ⟨[c, d], rest, rfl, rfl, fun {r'} _ => by simp [hpair]⟩

theorem firm_operator : Firm fun cs => (operator? order cs).map (·, true) where
  none {c cs ds} h hs := by
    simp only [operator?, Option.map_eq_none_iff] at h ⊢
    have := firm_symbol.none (c := c) (by rw [h]; rfl) hs
    simpa using this
  some {cs l} h := by
    obtain ⟨m, hm, hl⟩ := Option.map_eq_some_iff.mp h
    cases hl
    obtain ⟨m, hm', rfl⟩ := Option.map_eq_some_iff.mp hm
    obtain ⟨w, r, rfl, hlength, hread⟩ := firm_symbol.some (l := m) (by rw [hm']; rfl)
    refine ⟨w, r, rfl, ?_, fun hs => ?_⟩
    · rw [hlength]
      split <;> rfl
    · have := hread hs
      simp only [Option.map_eq_some_iff, Prod.mk.injEq, and_true, exists_eq_right] at this
      simp only [operator?, this]
      rfl

theorem firm_read (order : ReadOrder) : Firm (read? order) := by
  cases order with
  | numberFirst => exact .orElse firm_number (.orElse firm_string (.orElse firm_name firm_operator))
  | operatorFirst => exact .orElse firm_operator (.orElse firm_string (.orElse firm_name firm_number))

theorem comment_split (h : comment cs = .found l) : ∃ w r, cs = w ++ r ∧ w.length = l.length ∧
    ∀ {r'}, Spread r r' → comment (w ++ r') = .found l := by
  unfold comment at h
  split at h
  · rename_i rest
    obtain ⟨w, r, rfl, htake, -, hw, hr⟩ := takeWhile_split (· != '\n') rest
    refine ⟨'/' :: '/' :: w, r, rfl, ?_, fun {r'} hs => ?_⟩
    · cases h
      simp only [htake, List.length_cons]
      omega
    · have hread := takeWhile_of_all hw (hs.newline hr)
      rw [← h, List.cons_append, List.cons_append, comment]
      simp only [hread, htake]
  · rename_i rest
    split at h
    · rename_i n hn
      obtain ⟨w, r, rfl, hlength, -, hread⟩ := blockLength_split hn
      refine ⟨'/' :: '*' :: w, r, rfl, ?_, fun {r'} _ => ?_⟩
      · cases h
        simp only [List.length_cons, hlength]
        omega
      · rw [← h, List.cons_append, List.cons_append, comment]
        simp only [hread]
    · cases h
  · cases h

theorem comment_absent (h : comment (c :: cs) = .absent) (hs : Spread cs ds) :
    comment (c :: ds) = .absent := by
  unfold comment
  split
  · rename_i heq
    cases heq
    cases hs with
    | blank hb _ => exact absurd hb (by decide)
    | cons hs => cases h
  · rename_i heq
    cases heq
    cases hs with
    | blank hb _ => exact absurd hb (by decide)
    | cons hs =>
      unfold comment at h
      split at h
      · cases h
      · split at h <;> cases h
      · rename_i hstar
        exact absurd rfl (hstar _)
  · rfl

theorem blockLength_append {body : List Char} (hbody : ¬ ['*', '/'] <:+: body) (rest : List Char) :
    blockLength? (body ++ '*' :: '/' :: rest) = some (body.length + 2) := by
  induction body with
  | nil => simp [blockLength?]
  | cons c body ih =>
    have hnext := ih fun h => hbody (h.trans (List.suffix_cons c body).isInfix)
    rw [List.cons_append, blockLength?.eq_2 _ _ fun xs hc hxs => ?_, hnext]
    · rfl
    · subst hc
      cases body with
      | nil => cases hxs
      | cons d body =>
        cases hxs
        exact hbody ⟨[], body, rfl⟩

theorem comment_line {body : List Char} (hbody : '\n' ∉ body) (rest : List Char) :
    comment ('/' :: '/' :: body ++ '\n' :: rest) =
      .found ⟨.comment, 2 + body.length, Nat.add_pos_left Nat.two_pos _⟩ := by
  have htake : (body ++ '\n' :: rest).takeWhile (· != '\n') = body :=
    takeWhile_of_all (fun c hc => by simpa using fun (h : c = '\n') => hbody (h ▸ hc)) rfl
  simp only [List.cons_append, comment, htake]

theorem comment_block {body : List Char} (hbody : ¬ ['*', '/'] <:+: body) (rest : List Char) :
    comment ('/' :: '*' :: body ++ '*' :: '/' :: rest) =
      .found ⟨.comment, 2 + (body.length + 2), Nat.add_pos_left Nat.two_pos _⟩ := by
  simp only [List.cons_append, comment, blockLength_append hbody]

end Lexeme

def Token.isComment (t : Token) : Bool :=
  match t.kind with
  | .comment => true
  | _ => false

namespace Scan

-- The tokens that mean something,
def spoken (s : Scan) : List Token :=
  (s.tokens.map Prod.fst).filter fun t => !t.isComment

-- as they read.
def words (s : Scan) : List (TokenKind × String) :=
  s.spoken.map fun t => (t.kind, t.text)

-- A scan to the end, with every literal closed.
structure Clean (s : Scan) : Prop where
  fatal : s.fatal = none
  warnings : s.warnings = []

-- What is in front of tokens only, and leaves them alone.
def Loosens (gap : Nat → List Char) (s : Scan) : Prop :=
  ∀ n, gap n ≠ [] → Trivia (gap n) ∧ ∃ t ∈ s.tokens.map Prod.fst, t.span.start = n

-- Scans that come to the same.
structure Agrees (s s' : Scan) : Prop where
  words : s'.words = s.words
  clean : s.Clean → s'.Clean

theorem Agrees.trans {s₁ s₂ s₃ : Scan} (h : s₁.Agrees s₂) (h' : s₂.Agrees s₃) : s₁.Agrees s₃ :=
  ⟨h'.words.trans h.words, fun hc => h'.clean (h.clean hc)⟩

end Scan

namespace Scanner

variable {s next : Scanner} {t : Token} {w : Option Diagnostic}

theorem scan_of_next (h : s.next = .token t next w) : s.scan = next.scan.push t next.order w := by
  rw [scan]
  split
  · rename_i hnext
    cases h.symm.trans hnext
  · rename_i hnext
    cases h.symm.trans hnext
  · rename_i hnext
    cases h.symm.trans hnext
    rfl

theorem scan_of_done (h : s.next = .done) : s.scan = ⟨[], none, []⟩ := by
  rw [scan]
  split
  · rfl
  · rename_i hnext
    cases h.symm.trans hnext
  · rename_i hnext
    cases h.symm.trans hnext

theorem scan_of_fatal {d : Diagnostic} (h : s.next = .fatal d) : s.scan = ⟨[], some d, []⟩ := by
  rw [scan]
  split
  · rename_i hnext
    cases h.symm.trans hnext
  · rename_i hnext
    cases h.symm.trans hnext
    rfl
  · rename_i hnext
    cases h.symm.trans hnext

theorem scan_congr {s' : Scanner} (h : s.next = s'.next) : s.scan = s'.scan := by
  cases hs : s'.next with
  | done => rw [scan_of_done hs, scan_of_done (h.trans hs)]
  | fatal d => rw [scan_of_fatal hs, scan_of_fatal (h.trans hs)]
  | token t next w => rw [scan_of_next hs, scan_of_next (h.trans hs)]

theorem skipBlanks_self (hrest : s.rest.takeWhile Lexeme.isBlank = []) : s.skipBlanks = s := by
  rw [skipBlanks, hrest]
  rfl

theorem next_of_blank (hrest : s.rest = c :: cs) (hc : Lexeme.isBlank c = true) :
    s.next = (s.advance 1).next := by
  obtain ⟨rest, offset, position, order⟩ := s
  obtain rfl : rest = c :: cs := hrest
  unfold Scanner.next skipBlanks
  simp only [advance, List.takeWhile_cons, hc, if_true, List.length_cons, List.drop_succ_cons,
    List.take_succ_cons, List.drop_zero, List.take_zero, byteLength_cons, byteLength_nil, Nat.add_assoc,
    Nat.add_zero, Position.advance, List.foldl_cons, List.foldl_nil]

-- A comment says nothing,
theorem agrees_of_comment (h : s.next = .token t next none) (ht : t.isComment = true) :
    next.scan.Agrees s.scan := by
  rw [scan_of_next h]
  refine ⟨?_, fun hclean => ⟨hclean.fatal, hclean.warnings⟩⟩
  simp [Scan.words, Scan.spoken, Scan.push, ht]

theorem readToken_of_found {l : Lexeme} (h : Lexeme.comment s.rest = .found l) :
    s.readToken = .token (s.place l) (s.advance l.length) none := by
  unfold readToken
  split
  · simp_all [Lexeme.comment]
  · simp only [h]

theorem readToken_of_read {l : Lexeme} (hne : s.rest ≠ []) (hno : Lexeme.comment s.rest = .absent)
    (h : Lexeme.read? s.order s.rest = some (l, true)) :
    s.readToken = .token (s.place l) { s.advance l.length with order := s.order.after l.kind } none := by
  unfold readToken
  split
  · contradiction
  · simp only [hno, h, if_true]

theorem next_of_found {l : Lexeme} (h : Lexeme.comment s.rest = .found l) :
    s.next = .token (s.place l) (s.advance l.length) none := by
  have hrest : s.rest.takeWhile Lexeme.isBlank = [] := by
    unfold Lexeme.comment at h
    split at h
    · simp_all [Lexeme.isBlank]
    · simp_all [Lexeme.isBlank]
    · cases h
  rw [Scanner.next, skipBlanks_self hrest, readToken_of_found h]

theorem agrees_of_found {l : Lexeme} (h : Lexeme.comment s.rest = .found l) :
    (s.advance l.length).scan.Agrees s.scan := by
  refine agrees_of_comment (next_of_found h) ?_
  simp only [Token.isComment, place, Lexeme.kind_of_comment h]

-- and neither does a whole layout.
theorem scan_of_filler {g x : List Char} (hg : Filler g) (hrest : s.rest = g ++ x) :
    ∃ s' : Scanner, s'.rest = x ∧ s'.order = s.order ∧ s'.scan.Agrees s.scan := by
  induction hg generalizing s with
  | nil => exact ⟨s, hrest, rfl, rfl, id⟩
  | @blank c cs hc _ ih =>
    obtain ⟨s', hs', horder, hagrees⟩ := ih (s := s.advance 1) (by simp [advance, hrest])
    rw [← scan_congr (next_of_blank hrest hc)] at hagrees
    exact ⟨s', hs', horder, hagrees⟩
  | @line body cs hbody _ ih =>
    rw [List.append_assoc] at hrest
    have hfound := hrest ▸ Lexeme.comment_line hbody (cs ++ x)
    have hnext : (s.advance (2 + body.length)).rest = '\n' :: cs ++ x := by
      simp [advance, hrest, Nat.add_comm 2]
    obtain ⟨s', hs', horder, hagrees⟩ := ih hnext
    exact ⟨s', hs', horder, hagrees.trans (agrees_of_found hfound)⟩
  | @block body cs hbody _ ih =>
    rw [List.append_assoc] at hrest
    have hfound := hrest ▸ Lexeme.comment_block hbody (cs ++ x)
    have hnext : (s.advance (2 + (body.length + 2))).rest = cs ++ x := by
      simp [advance, hrest, Nat.add_comm 2]
    obtain ⟨s', hs', horder, hagrees⟩ := ih hnext
    exact ⟨s', hs', horder, hagrees.trans (agrees_of_found hfound)⟩

theorem advance_of_rest {n : Nat} (hrest : s.rest = ws ++ cs) (hn : ws.length = n) :
    s.rest.take n = ws ∧ (s.advance n).rest = cs ∧ (s.advance n).offset = s.offset + byteLength ws := by
  subst hn
  simp [advance, hrest]

-- A token is read as before when blanks come up behind it.
structure Reads (s : Scanner) (t : Token) (next : Scanner) (ws : List Char) : Prop where
  rest : s.rest = ws ++ next.rest
  some : ws ≠ []
  offset : next.offset = s.offset + byteLength ws
  again : ∀ {s' : Scanner} {r'}, Spread next.rest r' → s'.rest = ws ++ r' → s'.order = s.order →
    ∃ t' next', s'.readToken = .token t' next' none ∧ t'.kind = t.kind ∧ t'.text = t.text ∧
      next'.rest = r' ∧ next'.order = next.order

theorem readToken_reads (h : s.readToken = .token t next none) : ∃ ws, s.Reads t next ws := by
  unfold readToken at h
  split at h
  · cases h
  rename_i c cs hrest
  split at h
  · rename_i l hfound
    cases h
    obtain ⟨ws, r, hws, hlength, hspread⟩ := Lexeme.comment_split hfound
    obtain ⟨htake, hnext, hoffset⟩ := advance_of_rest hws hlength
    refine ⟨ws, hnext ▸ hws, fun hnil => ?_, hoffset, fun {s' r'} hr hs' ho => ?_⟩
    · have := l.length_pos
      simp [← hlength, hnil] at this
    · obtain ⟨htake', hnext', -⟩ := advance_of_rest hs' hlength
      refine ⟨_, _, readToken_of_found (hs' ▸ hspread (hnext ▸ hr)), rfl, ?_, hnext', ho⟩
      simp only [place, htake, htake']
  · cases h
  · rename_i hno
    split at h
    · rename_i l complete hread
      cases complete with
      | false => cases h
      | true =>
        cases h
        obtain ⟨ws, r, hws, hlength, hspread⟩ := (Lexeme.firm_read s.order).some hread
        obtain ⟨htake, hnext, hoffset⟩ := advance_of_rest hws hlength
        have hne : ws ≠ [] := fun hnil => by
          have := l.length_pos
          simp [← hlength, hnil] at this
        refine ⟨ws, hnext ▸ hws, hne, hoffset, fun {s' r'} hr hs' ho => ?_⟩
        have hr : Spread r r' := hnext ▸ hr
        obtain ⟨htake', hnext', -⟩ := advance_of_rest hs' hlength
        have hno' : Lexeme.comment s'.rest = .absent := by
          cases ws with
          | nil => exact absurd rfl hne
          | cons d ws =>
            rw [hws] at hno
            rw [hs']
            exact Lexeme.comment_absent hno (hr.append ws)
        refine ⟨_, _, readToken_of_read ?_ hno' (ho ▸ hs' ▸ hspread hr), rfl, ?_, hnext', ?_⟩
        · rw [hs']
          exact List.append_ne_nil_of_left_ne_nil hne _
        · simp only [place, htake, htake']
        · simp only [ho]
    · cases h

theorem start_of_next (h : s.next = .token t next w) :
    t.span.start = s.skipBlanks.offset ∧ s.skipBlanks.offset ≤ next.offset := by
  obtain ⟨n, htakes, -, order, rfl⟩ := readToken_token h
  exact ⟨by rw [htakes.span]; rfl, Nat.le_add_right _ _⟩

theorem later (ht : t ∈ s.scan.tokens.map Prod.fst) : s.offset ≤ t.span.start := by
  fun_induction Scanner.scan s with
  | case1 | case2 => cases ht
  | case3 s u next w hnext _ ih =>
    obtain ⟨hstart, hle⟩ := start_of_next hnext
    have hskip : s.offset ≤ s.skipBlanks.offset := Nat.le_add_right _ _
    rcases List.mem_cons.mp ht with rfl | ht
    · exact hstart ▸ hskip
    · exact Nat.le_trans hskip (Nat.le_trans hle (ih ht))

end Scanner

section Respace

variable {gap : Nat → List Char} {offset : Nat}

theorem respace_append (gap : Nat → List Char) (offset : Nat) (cs ds : List Char) :
    respace gap offset (cs ++ ds) =
      respace gap offset cs ++ respace gap (offset + byteLength cs) ds := by
  induction cs generalizing offset with
  | nil => rfl
  | cons c cs ih =>
    simp only [List.cons_append, respace, ih, byteLength_cons, List.append_assoc, Nat.add_assoc]

theorem respace_self (h : ∀ n, offset ≤ n → n < offset + byteLength cs → gap n = []) :
    respace gap offset cs = cs := by
  induction cs generalizing offset with
  | nil => rfl
  | cons c cs ih =>
    have := c.utf8Size_pos
    rw [byteLength_cons] at h
    rw [respace, h offset (Nat.le_refl _) (by omega), ih fun n _ _ => h n (by omega) (by omega)]
    rfl

theorem respace_behind (hne : cs ≠ []) (h : ∀ n, offset < n → n < offset + byteLength cs → gap n = []) :
    respace gap offset cs = gap offset ++ cs := by
  cases cs with
  | nil => exact absurd rfl hne
  | cons c cs =>
    have := c.utf8Size_pos
    rw [byteLength_cons] at h
    rw [respace, respace_self fun n _ _ => h n (by omega) (by omega)]

theorem Filler.append {g g' : List Char} (h : Filler g) (h' : Filler g') : Filler (g ++ g') := by
  induction h with
  | nil => exact h'
  | blank hc _ ih => exact .blank hc ih
  | line hbody _ ih =>
    rw [List.append_assoc]
    exact .line hbody ih
  | block hbody _ ih =>
    rw [List.append_assoc]
    exact .block hbody ih

theorem Filler.blanks (h : ∀ c ∈ cs, Lexeme.isBlank c = true) : Filler cs := by
  induction cs with
  | nil => exact .nil
  | cons c cs ih => exact .blank (h c (by simp)) (ih fun d hd => h d (by simp [hd]))

theorem Spread.refl (cs : List Char) : Spread cs cs := by
  simpa using Spread.nil.append cs

end Respace

namespace Scanner

variable {gap : Nat → List Char} {s s' : Scanner}

-- Both read the same token, and then the same ones behind it.
theorem agrees_of_next {t t' : Token} {next next' : Scanner} (h : s.next = .token t next none)
    (h' : s'.next = .token t' next' none) (hkind : t'.kind = t.kind) (htext : t'.text = t.text)
    (hagrees : next.scan.Agrees next'.scan) : s.scan.Agrees s'.scan := by
  have hcomment : t'.isComment = t.isComment := by simp only [Token.isComment, hkind]
  rw [scan_of_next h, scan_of_next h']
  refine ⟨?_, fun hclean => ?_⟩
  · have hwords := hagrees.words
    simp only [Scan.words, Scan.spoken, Scan.push, List.map_cons, List.filter_cons, hcomment] at hwords ⊢
    split
    · simp only [List.map_cons, hkind, htext, hwords]
    · exact hwords
  · obtain ⟨hfatal, hwarnings⟩ := hagrees.clean ⟨hclean.fatal, hclean.warnings⟩
    exact ⟨hfatal, hwarnings⟩

-- What is put in front of the tokens does not change what is read.
theorem scan_respaced (hclean : s.scan.Clean)
    (hgap : ∀ n, s.offset ≤ n → gap n ≠ [] →
      Trivia (gap n) ∧ ∃ t ∈ s.scan.tokens.map Prod.fst, t.span.start = n) :
    Spread s.rest (respace gap s.offset s.rest) ∧ ∀ {s' : Scanner},
      s'.rest = respace gap s.offset s.rest → s'.order = s.order → s.scan.Agrees s'.scan := by
  induction s using Scanner.scan.induct with
  | case1 s hdone =>
    rw [scan_of_done hdone] at hgap
    have hself : respace gap s.offset s.rest = s.rest := respace_self fun n hn _ =>
      Decidable.byContradiction fun hne => by
        obtain ⟨-, t, ht, -⟩ := hgap n hn hne
        cases ht
    rw [hself]
    refine ⟨Spread.refl _, fun {s'} hs' ho => ?_⟩
    have hdone' : s'.next = .done := by
      have hnil := readToken_done hdone
      have hsame : s'.skipBlanks.rest = s.skipBlanks.rest := by simp only [skipBlanks, advance, hs']
      rw [hnil] at hsame
      unfold Scanner.next readToken
      rw [hsame]
    rw [scan_of_done hdone, scan_of_done hdone']
    exact ⟨rfl, id⟩
  | case2 s d hfatal =>
    rw [scan_of_fatal hfatal] at hclean
    cases hclean.fatal
  | case3 s t next w hnext _ ih =>
    rw [scan_of_next hnext] at hclean hgap
    have hw : w = none := by
      have := hclean.warnings
      cases w with
      | none => rfl
      | some d => cases this
    subst hw
    obtain ⟨ws, hread⟩ := readToken_reads hnext
    obtain ⟨hstart, -⟩ := start_of_next hnext
    obtain ⟨bs, rest, hrest, hbs, hskip, hall, hhead⟩ := takeWhile_split Lexeme.isBlank s.rest
    have hskipped : s.skipBlanks.rest = rest ∧ s.skipBlanks.offset = s.offset + byteLength bs := by
      have := advance_of_rest (n := (s.rest.takeWhile Lexeme.isBlank).length) hrest (by rw [hbs])
      exact this.2
    have hpos : 0 < byteLength ws := by
      have := length_le_byteLength ws
      have := List.length_pos_iff.mpr hread.some
      omega
    have hoffset := hread.offset
    rw [hskipped.2] at hoffset hstart
    -- No gap falls inside of the blanks or of the token.
    have hwhere : ∀ n, s.offset ≤ n → n < next.offset → n ≠ s.offset + byteLength bs → gap n = [] := by
      intro n hn hlt hne
      refine Decidable.byContradiction fun hsome => ?_
      obtain ⟨-, u, hu, rfl⟩ := hgap n hn hsome
      rcases List.mem_cons.mp hu with rfl | hu
      · exact hne hstart
      · have := later hu
        omega
    obtain ⟨hspread, hagrees⟩ := ih ⟨hclean.fatal, hclean.warnings⟩ fun n hn hsome => by
      obtain ⟨htrivia, u, hu, rfl⟩ := hgap n (by omega) hsome
      rcases List.mem_cons.mp hu with rfl | hu
      · omega
      · exact ⟨htrivia, u, hu, rfl⟩
    have hall' : Filler bs := .blanks hall
    have hws : rest = ws ++ next.rest := hskipped.1 ▸ hread.rest
    rw [hoffset] at hwhere hspread hagrees
    subst hws
    have htext : respace gap s.offset s.rest =
        bs ++ (gap (s.offset + byteLength bs) ++ (ws ++ respace gap next.offset next.rest)) := by
      rw [hrest, respace_append, respace_append,
        respace_self fun n hn hlt => hwhere n hn (by omega) (by omega),
        respace_behind hread.some fun n hlt hlt' => hwhere n (by omega) (by omega) (by omega), hoffset,
        List.append_assoc]
    rw [← hoffset] at hspread hagrees
    obtain ⟨c, ws', rfl⟩ := List.exists_cons_of_ne_nil hread.some
    have hc : Lexeme.isBlank c = false := by
      cases hc : Lexeme.isBlank c
      · rfl
      · simp [hc] at hhead
    refine ⟨?_, fun {s'} hs' ho => ?_⟩
    · rw [htext, hrest]
      refine .append ?_ bs
      cases hg : gap (s.offset + byteLength bs) with
      | nil => exact hspread.append (c :: ws')
      | cons b g =>
        obtain ⟨⟨-, b', hb', hb⟩, -⟩ := hgap (s.offset + byteLength bs) (by omega) (by simp [hg])
        rw [hg] at hb'
        cases hb'
        exact .blank hb hc
    · have hfiller : Filler (bs ++ gap (s.offset + byteLength bs)) := by
        refine hall'.append ?_
        cases hg : gap (s.offset + byteLength bs) with
        | nil => exact .nil
        | cons b g =>
          rw [← hg]
          exact (hgap _ (by omega) (by simp [hg])).1.filler
      obtain ⟨s'', hs'', ho'', hagrees'⟩ := scan_of_filler hfiller
        (hs'.trans (htext.trans (List.append_assoc ..).symm))
      obtain ⟨t', next', hread', hkind, htext', hnext', horder'⟩ :=
        hread.again hspread hs'' (ho''.trans ho)
      refine .trans (agrees_of_next hnext ?_ hkind htext' (hagrees hnext' horder')) hagrees'
      rw [Scanner.next, skipBlanks_self]
      · exact hread'
      · rw [hs'', List.cons_append, List.takeWhile_cons, hc]
        rfl

end Scanner

end FinLang

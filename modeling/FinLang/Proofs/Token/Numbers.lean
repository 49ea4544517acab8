import FinLang.Proofs.Token.Literals
import Mathlib.Computability.RegularExpressions
import Mathlib.Tactic.FinCases
import Mathlib.Tactic.IntervalCases

namespace FinLang

theorem byteLength_of_single {cs : List Char} (h : ∀ c ∈ cs, c.utf8Size = 1) :
    byteLength cs = cs.length := by
  induction cs with
  | nil => rfl
  | cons c cs ih =>
    rw [List.forall_mem_cons] at h
    rw [byteLength_cons, h.1, ih h.2, List.length_cons, Nat.add_comm]

-- Patterns for lexemes, put together from single characters.
namespace Pattern

open RegularExpression

def oneOf (cs : List Char) : RegularExpression Char :=
  cs.foldr (fun c p => char c + p) 0

def optional (p : RegularExpression Char) : RegularExpression Char :=
  1 + p

-- Once or more often.
def several (p : RegularExpression Char) : RegularExpression Char :=
  p * p.star

variable {p q : RegularExpression Char} {cs xs : List Char} {c : Char} {inside : Char → Bool}

theorem mem_char : xs ∈ (char c).matches' ↔ xs = [c] :=
  Iff.rfl

theorem mem_mul : xs ∈ (p * q).matches' ↔ ∃ ys ∈ p.matches', ∃ zs ∈ q.matches', ys ++ zs = xs :=
  Language.mem_mul

theorem mem_add : xs ∈ (p + q).matches' ↔ xs ∈ p.matches' ∨ xs ∈ q.matches' :=
  Iff.rfl

theorem mem_oneOf : xs ∈ (oneOf cs).matches' ↔ ∃ c ∈ cs, xs = [c] := by
  induction cs with
  | nil => exact ⟨False.elim, by simp⟩
  | cons c cs ih => rw [oneOf, List.foldr_cons, mem_add, ← oneOf, ih, mem_char, List.exists_mem_cons_iff]

theorem mem_optional : xs ∈ (optional p).matches' ↔ xs = [] ∨ xs ∈ p.matches' :=
  Iff.rfl

-- What an optional part stands for is there or not.
theorem mem_optional_of {α : Type} {P : α → Prop} {f : α → List Char}
    (hp : ∀ ys, ys ∈ p.matches' ↔ ∃ a, P a ∧ ys = f a) :
    xs ∈ (optional p).matches' ↔ ∃ part : Option α, (∀ a ∈ part, P a) ∧ xs = part.elim [] f := by
  rw [mem_optional, hp]
  constructor
  · rintro (rfl | ⟨a, ha, rfl⟩)
    · exact ⟨none, by simp, rfl⟩
    · exact ⟨some a, by simpa using ha, rfl⟩
  · rintro ⟨_ | a, ha, rfl⟩
    · exact .inl rfl
    · exact .inr ⟨a, ha a rfl, rfl⟩

-- Where a pattern matches the characters of a class, its star matches the texts of such characters.
theorem mem_star (hp : ∀ ys, ys ∈ p.matches' ↔ ∃ c, inside c = true ∧ ys = [c]) :
    xs ∈ p.star.matches' ↔ ∀ c ∈ xs, inside c = true := by
  rw [matches'_star, Language.mem_kstar]
  constructor
  · rintro ⟨words, rfl, hwords⟩ c hc
    obtain ⟨word, hword, hc⟩ := List.mem_flatten.mp hc
    obtain ⟨d, hd, rfl⟩ := (hp word).mp (hwords word hword)
    rwa [List.mem_singleton.mp hc]
  · intro hxs
    refine ⟨xs.map fun c => [c], ?_, fun word hword => ?_⟩
    · rw [← List.flatMap_def, List.flatMap_singleton']
    · obtain ⟨c, hc, rfl⟩ := List.mem_map.mp hword
      exact (hp [c]).mpr ⟨c, hxs c hc, rfl⟩

theorem mem_several (hp : ∀ ys, ys ∈ p.matches' ↔ ∃ c, inside c = true ∧ ys = [c]) :
    xs ∈ (several p).matches' ↔ xs ≠ [] ∧ ∀ c ∈ xs, inside c = true := by
  rw [several, mem_mul]
  constructor
  · rintro ⟨ys, hys, zs, hzs, rfl⟩
    obtain ⟨c, hc, rfl⟩ := (hp ys).mp hys
    exact ⟨by simp, List.forall_mem_cons.mpr ⟨hc, (mem_star hp).mp hzs⟩⟩
  · rintro ⟨hne, hxs⟩
    obtain ⟨c, cs, rfl⟩ := List.exists_cons_of_ne_nil hne
    rw [List.forall_mem_cons] at hxs
    exact ⟨[c], (hp [c]).mpr ⟨c, hxs.1, rfl⟩, cs, (mem_star hp).mpr hxs.2, rfl⟩

end Pattern

-- The parts of an exponent, and of a number, are what their names say.
structure Exponent.Spelt (e : Exponent) : Prop where
  mark : e.mark = 'e' ∨ e.mark = 'E'
  sign : ∀ c ∈ e.sign, Numeral.isSign c = true
  digits : ∀ c ∈ e.digits, c.isDigit = true
  digits_ne : e.digits ≠ []

structure Numeral.Spelt (n : Numeral) : Prop where
  sign : ∀ c ∈ n.sign, isSign c = true
  whole : ∀ c ∈ n.whole, c.isDigit = true
  fraction : ∀ ds ∈ n.fraction, ∀ c ∈ ds, c.isDigit = true
  digits_ne : n.whole = [] → ∃ ds ∈ n.fraction, ds ≠ []
  exponent : ∀ e ∈ n.exponent, e.Spelt

namespace Numeral

open Pattern RegularExpression

def signPattern : RegularExpression Char :=
  oneOf ['+', '-']

def digitPattern : RegularExpression Char :=
  oneOf ['0', '1', '2', '3', '4', '5', '6', '7', '8', '9']

def digitsPattern : RegularExpression Char :=
  several digitPattern

-- `d+ (. d*)?` or `. d+`
def magnitudePattern : RegularExpression Char :=
  digitsPattern * optional (char '.' * digitPattern.star) + char '.' * digitsPattern

def exponentPattern : RegularExpression Char :=
  oneOf ['e', 'E'] * (optional signPattern * digitsPattern)

-- The numbers: `[+-]? (d+ (. d*)? | . d+) ([eE] [+-]? d+)?`
def pattern : RegularExpression Char :=
  optional signPattern * (magnitudePattern * optional exponentPattern)

section Matching

variable {xs : List Char}

theorem mem_sign (xs : List Char) :
    xs ∈ signPattern.matches' ↔ ∃ c, isSign c = true ∧ xs = [c] := by
  rw [signPattern, mem_oneOf]
  simp [isSign]

theorem isDigit_iff {c : Char} : c.isDigit = true ↔
    c ∈ ['0', '1', '2', '3', '4', '5', '6', '7', '8', '9'] := by
  constructor
  · intro hc
    have hrange : 48 ≤ c.toNat ∧ c.toNat ≤ 57 := by
      simpa [Char.isDigit, UInt32.le_iff_toNat_le] using hc
    rw [← Char.ofNat_toNat c]
    obtain ⟨hlow, hhigh⟩ := hrange
    interval_cases c.toNat <;> decide
  · intro hc
    fin_cases hc <;> rfl

theorem mem_digit (xs : List Char) :
    xs ∈ digitPattern.matches' ↔ ∃ c, c.isDigit = true ∧ xs = [c] := by
  simp only [digitPattern, mem_oneOf, isDigit_iff]

theorem mem_digits : xs ∈ digitsPattern.matches' ↔ xs ≠ [] ∧ ∀ c ∈ xs, c.isDigit = true :=
  mem_several mem_digit

theorem mem_exponent (xs : List Char) :
    xs ∈ exponentPattern.matches' ↔ ∃ e : Exponent, e.Spelt ∧ xs = e.chars := by
  simp only [exponentPattern, mem_mul, mem_oneOf, mem_optional_of mem_sign, mem_digits]
  constructor
  · rintro ⟨_, ⟨mark, hmark, rfl⟩, _, ⟨_, ⟨sign, hsign, rfl⟩, ds, hds, rfl⟩, rfl⟩
    refine ⟨⟨mark, sign, ds⟩, ⟨by simpa using hmark, hsign, hds.2, hds.1⟩, ?_⟩
    cases sign <;> rfl
  · rintro ⟨⟨mark, sign, ds⟩, h, rfl⟩
    refine ⟨[mark], ⟨mark, by simpa using h.mark, rfl⟩, sign.toList ++ ds, ⟨sign.toList, ⟨sign, h.sign, ?_⟩,
      ds, ⟨h.digits_ne, h.digits⟩, rfl⟩, rfl⟩
    cases sign <;> rfl

-- A point has a digit on at least one side.
theorem mem_magnitude : xs ∈ magnitudePattern.matches' ↔
    ∃ (whole : List Char) (fraction : Option (List Char)), (∀ c ∈ whole, c.isDigit = true) ∧
      (∀ ds ∈ fraction, ∀ c ∈ ds, c.isDigit = true) ∧ (whole = [] → ∃ ds ∈ fraction, ds ≠ []) ∧
      xs = whole ++ fraction.elim [] fun ds => '.' :: ds := by
  simp only [magnitudePattern, mem_add, mem_mul, mem_optional, mem_digits, mem_char, mem_star mem_digit]
  constructor
  · rintro (⟨whole, ⟨hne, hwhole⟩, _, rfl | ⟨_, rfl, ds, hds, rfl⟩, rfl⟩ | ⟨_, rfl, ds, ⟨hne, hds⟩, rfl⟩)
    · exact ⟨whole, none, hwhole, by simp, fun h => absurd h hne, rfl⟩
    · exact ⟨whole, some ds, hwhole, by simpa using hds, fun h => absurd h hne, rfl⟩
    · exact ⟨[], some ds, by simp, by simpa using hds, fun _ => ⟨ds, rfl, hne⟩, rfl⟩
  · rintro ⟨whole, _ | ds, hwhole, hds, hne, rfl⟩
    · exact .inl ⟨whole, ⟨fun h => by simpa using hne h, hwhole⟩, [], .inl rfl, rfl⟩
    · by_cases hw : whole = []
      · subst hw
        exact .inr ⟨['.'], rfl, ds, ⟨by simpa using hne rfl, hds ds rfl⟩, rfl⟩
      · exact .inl ⟨whole, ⟨hw, hwhole⟩, '.' :: ds, .inr ⟨['.'], rfl, ds, hds ds rfl, rfl⟩, rfl⟩

-- What the pattern matches can be taken apart into a number.
theorem mem_pattern : xs ∈ pattern.matches' ↔ ∃ n : Numeral, n.Spelt ∧ xs = n.chars := by
  simp only [pattern, mem_mul, mem_optional_of mem_sign, mem_magnitude, mem_optional_of mem_exponent]
  constructor
  · rintro ⟨_, ⟨sign, hsign, rfl⟩, _, ⟨_, ⟨whole, fraction, hwhole, hfraction, hne, rfl⟩, _,
      ⟨exponent, hexponent, rfl⟩, rfl⟩, rfl⟩
    refine ⟨⟨sign, whole, fraction, exponent⟩, ⟨hsign, hwhole, hfraction, hne, hexponent⟩, ?_⟩
    cases sign <;> simp [chars]
  · rintro ⟨⟨sign, whole, fraction, exponent⟩, h, rfl⟩
    refine ⟨sign.toList, ⟨sign, h.sign, ?_⟩, _, ⟨_, ⟨whole, fraction, h.whole, h.fraction, h.digits_ne, rfl⟩,
      _, ⟨exponent, h.exponent, rfl⟩, rfl⟩, by simp [chars]⟩
    cases sign <;> rfl

end Matching

section Reading

variable {n : Numeral} {cs rest whole ds : List Char} {c : Char} {e : Exponent}

-- Reading goes on behind digits that are there already.
theorem readDigits_of_digits (hds : ∀ c ∈ ds, c.isDigit = true) (rest : List Char) :
    readDigits (ds ++ rest) = (ds ++ (readDigits rest).1, (readDigits rest).2) := by
  rw [readDigits, readDigits, List.takeWhile_append_of_pos hds, List.dropWhile_append_of_pos hds]

theorem readDigits_of_not (hc : c.isDigit = false) (rest : List Char) :
    readDigits (c :: rest) = ([], c :: rest) := by
  simp [readDigits, hc]

theorem isDigit_of_readDigits : ∀ c ∈ (readDigits cs).1, c.isDigit = true :=
  fun c hc => List.all_eq_true.mp List.all_takeWhile c hc

theorem readFraction_point (h : whole ≠ [] ∨ (readDigits rest).1 ≠ []) :
    readFraction whole ('.' :: rest) = (some (readDigits rest).1, (readDigits rest).2) := by
  rw [readFraction]
  refine if_neg fun hempty => ?_
  rw [Bool.and_eq_true, List.isEmpty_iff, List.isEmpty_iff] at hempty
  exact h.elim (· hempty.1) (· hempty.2)

theorem readDigits_suffix (cs : List Char) : (readDigits cs).2 <:+ cs :=
  List.dropWhile_suffix _

theorem readExponent_suffix (cs : List Char) : (readExponent cs).2 <:+ cs :=
  ⟨_, readExponent_append cs⟩

theorem readFraction_suffix (whole cs : List Char) : (readFraction whole cs).2 <:+ cs :=
  ⟨_, readFraction_append whole cs⟩

theorem isSign_of_isDigit (hc : c.isDigit = true) : isSign c = false := by
  rw [isDigit_iff] at hc
  fin_cases hc <;> rfl

theorem readSign_of_sign (sign : Option Char) (hsign : ∀ c ∈ sign, isSign c = true)
    (hrest : ∀ c ∈ rest.head?, isSign c = false) : readSign (sign.toList ++ rest) = (sign, rest) := by
  cases sign with
  | some c => simp [readSign, hsign c rfl]
  | none =>
    cases rest with
    | nil => rfl
    | cons c rest => simp [readSign, hrest c rfl]

-- The exponent of a number is read, with more digits perhaps.
theorem readExponent_of_spelt (he : e.Spelt) (after : List Char) :
    (readExponent (e.chars ++ after)).2 = (readDigits after).2 := by
  obtain ⟨mark, sign, digits⟩ := e
  have hmark : (mark == 'e' || mark == 'E') = true := by simpa using he.mark
  obtain ⟨d, ds, rfl⟩ := List.exists_cons_of_ne_nil he.digits_ne
  have hsign : readSign (sign.toList ++ (d :: ds ++ after)) = (sign, d :: ds ++ after) :=
    readSign_of_sign sign he.sign fun c hc => by
      cases hc
      exact isSign_of_isDigit (he.digits d (List.mem_cons_self ..))
  rw [Exponent.chars, List.cons_append, List.append_assoc, readExponent_cons hmark, hsign,
    readDigits_of_digits he.digits]
  simp

-- The exponent, where there is one, is read from behind the digits before it: neither a digit nor a
-- point is its mark. What stays unread is an end of what comes after the number.
theorem tail_suffix {exponent : Option Exponent} (h : ∀ e ∈ exponent, e.Spelt) (whole after : List Char) :
    (readExponent (readDigits (exponent.elim [] Exponent.chars ++ after)).2).2 <:+ after ∧
      (readExponent (readFraction whole (readDigits (exponent.elim [] Exponent.chars ++ after)).2).2).2 <:+
        after := by
  cases exponent with
  | none =>
    have hdigits := readDigits_suffix after
    exact ⟨(readExponent_suffix _).trans hdigits,
      (readExponent_suffix _).trans ((readFraction_suffix _ _).trans hdigits)⟩
  | some e =>
    have he := h e rfl
    have hmark : e.mark.isDigit = false ∧ e.mark ≠ '.' := by
      rcases he.mark with hm | hm <;> rw [hm] <;> decide
    obtain ⟨text, htext⟩ : ∃ text, e.chars ++ after = e.mark :: text := ⟨_, rfl⟩
    have hfraction : readFraction whole (e.mark :: text) = (none, e.mark :: text) := by
      unfold readFraction
      split
      · rename_i heq
        exact absurd (List.cons.inj heq).1 hmark.2
      · rfl
    rw [Option.elim_some, htext, readDigits_of_not hmark.1, hfraction, ← htext, readExponent_of_spelt he]
    exact ⟨readDigits_suffix after, readDigits_suffix after⟩

-- Behind a number that stands at the front of a text, only what comes after it may stay unread.
theorem read_of_spelt (h : n.Spelt) (after : List Char) :
    ∃ m rest, read? (n.chars ++ after) = some (m, rest) ∧ rest <:+ after := by
  obtain ⟨sign, whole, fraction, exponent⟩ := n
  obtain ⟨tail, htail⟩ : ∃ tail, tail = exponent.elim [] Exponent.chars ++ after := ⟨_, rfl⟩
  have htext : chars ⟨sign, whole, fraction, exponent⟩ ++ after =
      sign.toList ++ (whole ++ ((fraction.elim [] fun ds => '.' :: ds) ++ tail)) := by
    simp [chars, htail]
  have hhead : ∀ c ∈ (whole ++ ((fraction.elim [] fun ds => '.' :: ds) ++ tail)).head?, isSign c = false := by
    intro c hc
    cases whole with
    | cons d whole =>
      cases hc
      exact isSign_of_isDigit (h.whole c (List.mem_cons_self ..))
    | nil =>
      obtain ⟨ds, rfl, -⟩ := h.digits_ne rfl
      cases hc
      rfl
  have hunread := fun whole => tail_suffix h.exponent whole after
  rw [← htail] at hunread
  rw [htext, read?_eq, readSign_of_sign sign h.sign hhead]
  cases fraction with
  | none =>
    have hne : whole ≠ [] := fun hnil => by simpa using h.digits_ne hnil
    simp only [Option.elim_none, List.nil_append, readDigits_of_digits h.whole]
    rw [if_neg (by simp [hne])]
    exact ⟨_, _, rfl, (hunread _).2⟩
  | some ds =>
    have hdigits := readDigits_of_digits (h.fraction ds rfl) tail
    have hne : whole ≠ [] ∨ (readDigits (ds ++ tail)).1 ≠ [] := by
      rw [hdigits]
      by_cases hwhole : whole = []
      · have hds : ds ≠ [] := by simpa using h.digits_ne hwhole
        simp [hds]
      · exact .inl hwhole
    have hpoint := readFraction_point hne
    rw [hdigits] at hpoint
    simp only [Option.elim_some, List.cons_append, readDigits_of_digits h.whole,
      readDigits_of_not (c := '.') rfl, List.append_nil, hpoint]
    exact ⟨_, _, if_neg (by simp), (hunread whole).1⟩

theorem isSign_of_readSign : ∀ c ∈ (readSign cs).1, isSign c = true := by
  unfold readSign
  split
  · split
    · rename_i hc
      simpa using hc
    · simp
  · simp

theorem spelt_of_readExponent : ∀ e ∈ (readExponent cs).1, e.Spelt := by
  unfold readExponent
  split
  · split
    · rename_i c rest hmark
      simp only
      split
      · simp
      · rename_i hne
        rintro e ⟨⟩
        exact ⟨by simpa using hmark, isSign_of_readSign, isDigit_of_readDigits, by simpa using hne⟩
    · simp
  · simp

theorem isDigit_of_readFraction : ∀ ds ∈ (readFraction whole cs).1, ∀ c ∈ ds, c.isDigit = true := by
  unfold readFraction
  split
  · simp only
    split
    · simp
    · rintro ds ⟨⟩
      exact isDigit_of_readDigits
  · simp

theorem digits_of_readFraction (ds : List Char) (h : (readFraction [] cs).1 = some ds) : ds ≠ [] := by
  unfold readFraction at h
  split at h
  · simp only at h
    split at h
    · cases h
    · rename_i hne
      cases h
      simpa using hne
  · cases h

-- What is read is a number.
theorem spelt_of_read (h : read? cs = some (n, rest)) : n.Spelt := by
  rw [read?_eq] at h
  simp only at h
  split at h
  · cases h
  · rename_i hdigits
    cases h
    refine ⟨isSign_of_readSign, isDigit_of_readDigits, isDigit_of_readFraction, fun hwhole => ?_,
      spelt_of_readExponent⟩
    simp only at hwhole
    rw [hwhole] at hdigits ⊢
    obtain ⟨ds, hds⟩ : ∃ ds, (readFraction [] (readDigits (readSign cs).2).2).1 = some ds :=
      Option.ne_none_iff_exists'.mp fun hnone => hdigits (by rw [hnone]; rfl)
    exact ⟨ds, hds, digits_of_readFraction ds hds⟩

theorem utf8Size_of_isDigit (hc : c.isDigit = true) : c.utf8Size = 1 := by
  rw [isDigit_iff] at hc
  fin_cases hc <;> rfl

theorem utf8Size_of_isSign (hc : isSign c = true) : c.utf8Size = 1 := by
  rcases Lexeme.sign_cases hc with rfl | rfl <;> rfl

theorem utf8Size_of_spelt (he : e.Spelt) : ∀ c ∈ e.chars, c.utf8Size = 1 := by
  simp only [Exponent.chars, List.mem_cons, List.mem_append, Option.mem_toList]
  rintro c (rfl | hc | hc)
  · rcases he.mark with hm | hm <;> rw [hm] <;> rfl
  · exact utf8Size_of_isSign (he.sign c hc)
  · exact utf8Size_of_isDigit (he.digits c hc)

-- A number is made of single bytes.
theorem Spelt.byteLength_chars (h : n.Spelt) : byteLength n.chars = n.chars.length := by
  refine byteLength_of_single fun c hc => ?_
  simp only [chars, List.mem_append, Option.mem_toList] at hc
  rcases hc with ((hc | hc) | hc) | hc
  · exact utf8Size_of_isSign (h.sign c hc)
  · exact utf8Size_of_isDigit (h.whole c hc)
  · rcases hfraction : n.fraction with _ | ds
    · simp [hfraction] at hc
    · rw [hfraction, Option.elim_some, List.mem_cons] at hc
      rcases hc with rfl | hc
      · rfl
      · exact utf8Size_of_isDigit (h.fraction ds hfraction c hc)
  · rcases hexponent : n.exponent with _ | e
    · simp [hexponent] at hc
    · exact utf8Size_of_spelt (h.exponent e hexponent) c (by rwa [hexponent] at hc)

end Reading

end Numeral

namespace Lexeme

open Numeral

variable {cs : List Char} {l : Lexeme}

theorem number_some (h : number? cs = some l) :
    ∃ n rest, Numeral.read? cs = some (n, rest) ∧ l.length = n.chars.length := by
  unfold number? at h
  split at h
  · rename_i n rest hread
    cases h
    exact ⟨n, rest, hread, rfl⟩
  · cases h

-- A mark and a sign without digits are left for the tokens that follow.
example : (number? "12.e+".toList).map Lexeme.length = some 3 := by decide +kernel

end Lexeme

end FinLang

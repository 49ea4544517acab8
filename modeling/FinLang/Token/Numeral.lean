namespace FinLang

structure Exponent where
  mark : Char
  sign : Option Char
  digits : List Char
deriving DecidableEq, Inhabited

-- A number as it is spelt: sign, whole digits, digits behind a point, exponent.
structure Numeral where
  sign : Option Char
  whole : List Char
  fraction : Option (List Char)
  exponent : Option Exponent
deriving DecidableEq, Inhabited

namespace Exponent

def chars (e : Exponent) : List Char :=
  e.mark :: (e.sign.toList ++ e.digits)

end Exponent

namespace Numeral

def chars (n : Numeral) : List Char :=
  n.sign.toList ++ n.whole ++ (n.fraction.elim [] fun ds => '.' :: ds) ++
    n.exponent.elim [] Exponent.chars

def isSign (c : Char) : Bool :=
  c == '+' || c == '-'

def readSign : List Char → Option Char × List Char
  | c :: rest => if isSign c then (some c, rest) else (none, c :: rest)
  | [] => (none, [])

def readDigits (cs : List Char) : List Char × List Char :=
  (cs.takeWhile Char.isDigit, cs.dropWhile Char.isDigit)

-- A point belongs to the number if there is a digit on at least one side of it.
def readFraction (whole : List Char) : List Char → Option (List Char) × List Char
  | '.' :: rest =>
    let (digits, after) := readDigits rest
    if whole.isEmpty && digits.isEmpty then (none, '.' :: rest) else (some digits, after)
  | cs => (none, cs)

-- A mark without digits is left for the next token.
def readExponent : List Char → Option Exponent × List Char
  | c :: rest =>
    if c == 'e' || c == 'E' then
      let (sign, unsigned) := readSign rest
      let (digits, after) := readDigits unsigned
      if digits.isEmpty then (none, c :: rest) else (some ⟨c, sign, digits⟩, after)
    else
      (none, c :: rest)
  | [] => (none, [])

-- The longest number at the front of the text, and what follows it.
def read? (cs : List Char) : Option (Numeral × List Char) :=
  let (sign, unsigned) := readSign cs
  let (whole, afterWhole) := readDigits unsigned
  let (fraction, afterFraction) := readFraction whole afterWhole
  if whole.isEmpty && fraction.isNone then
    none
  else
    let (exponent, rest) := readExponent afterFraction
    some (⟨sign, whole, fraction, exponent⟩, rest)

-- A number has at least one digit.
theorem length_chars_pos {cs rest : List Char} {n : Numeral} (h : read? cs = some (n, rest)) :
    0 < n.chars.length := by
  unfold read? at h
  dsimp only at h
  generalize readDigits (readSign cs).2 = digits at h
  generalize readFraction digits.1 digits.2 = read at h
  split at h
  · cases h
  · rename_i hdigits
    cases h
    simp only [chars, List.length_append]
    rcases hwhole : digits.1 with _ | ⟨d, ds⟩
    · rcases hfraction : read.1 with _ | ds
      · simp [hwhole, hfraction] at hdigits
      · simp only [Option.elim_some, List.length_cons]
        omega
    · simp only [List.length_cons]
      omega

def digitValue (c : Char) : Nat :=
  c.toNat - '0'.toNat

-- An exponent beyond this counts as this one.
def maxExponent : Nat :=
  400

def wholeValue (ds : List Char) : Float :=
  ds.foldl (fun v d => v * 10.0 + Float.ofNat (digitValue d)) 0.0

-- The weight of a digit is found by repeated division, rounding at each step.
def fractionValue (ds : List Char) : Float :=
  (ds.foldl
    (fun (step, v) d =>
      let weight := step / 10.0
      (weight, v + Float.ofNat (digitValue d) * weight))
    ((1.0 : Float), (0.0 : Float))).2

def scale (v : Float) (e : Exponent) : Float :=
  let places := min (e.digits.foldl (fun n d => n * 10 + digitValue d) 0) maxExponent
  if e.sign == some '-' then places.repeat (· / 10.0) v else places.repeat (· * 10.0) v

-- Computed digit by digit in floating point, so the result may be a few units
-- away from the nearest representable number.
def value (n : Numeral) : Float :=
  let whole := wholeValue n.whole
  let unscaled := n.fraction.elim whole fun ds => whole + fractionValue ds
  let magnitude := n.exponent.elim unscaled (scale unscaled)
  if n.sign == some '-' then -magnitude else magnitude

end Numeral

end FinLang

namespace FinLang.Number

-- A double taken apart. A finite one is `mantissa * 2 ^ exponent` up to sign.
inductive Binary where
  | nan
  | infinite (negative : Bool)
  | finite (negative : Bool) (mantissa : Nat) (exponent : Int)
deriving DecidableEq, Inhabited

def fractionBits : Nat :=
  52

def hiddenBit : Nat :=
  Nat.pow 2 fractionBits

def minExponent : Int :=
  -1074

namespace Binary

def ofBits (bits : Nat) : Binary :=
  let negative := Nat.pow 2 63 ≤ bits
  let field : Nat := bits / hiddenBit % Nat.pow 2 11
  let fraction := bits % hiddenBit
  if field = 2047 then
    if fraction = 0 then .infinite negative else .nan
  else if field = 0 then
    .finite negative fraction minExponent
  else
    .finite negative (hiddenBit + fraction) (field + minExponent - 1)

def ofFloat (x : Float) : Binary :=
  ofBits x.toBits.toNat

-- The double equal to `mantissa * 2 ^ exponent`, if there is one.
def encode (negative : Bool) (mantissa : Nat) (exponent : Int) : Float :=
  let magnitude :=
    if mantissa = 0 then
      0
    else
      let target := max minExponent (exponent + mantissa.log2 - fractionBits)
      let shifted :=
        if exponent ≤ target then mantissa / Nat.pow 2 (target - exponent).toNat
        else mantissa * Nat.pow 2 (exponent - target).toNat
      if shifted < hiddenBit then shifted
      else (target - minExponent + 1).toNat * hiddenBit + (shifted - hiddenBit)
  Float.ofBits (UInt64.ofNat ((if negative then Nat.pow 2 63 else 0) + magnitude))

end Binary

-- The whole number that is left when the fraction of `mantissa * 2 ^ exponent`
-- is dropped.
def floorScaled (mantissa : Nat) (exponent : Int) : Nat :=
  if 0 ≤ exponent then mantissa * Nat.pow 2 exponent.toNat
  else mantissa / Nat.pow 2 (-exponent).toNat

-- Finite, without a fraction.
def isInteger (x : Float) : Bool :=
  match Binary.ofFloat x with
  | .finite _ m e => 0 ≤ e || m % Nat.pow 2 (-e).toNat == 0
  | _ => false

def isFinite (x : Float) : Bool :=
  match Binary.ofFloat x with
  | .finite .. => true
  | _ => false

-- The magnitude with its fraction dropped. Numbers that are not finite count
-- as zero.
def magnitude (x : Float) : Nat :=
  match Binary.ofFloat x with
  | .finite _ m e => floorScaled m e
  | _ => 0

-- The remainder of a division that is rounded toward zero. It is exact and
-- takes the sign of the dividend.
def remainder (x y : Float) : Float :=
  match Binary.ofFloat x, Binary.ofFloat y with
  | .finite negative m e, .finite _ n f =>
    if n = 0 then
      0.0 / 0.0
    else
      let common := min e f
      let rest := (m * Nat.pow 2 (e - common).toNat) % (n * Nat.pow 2 (f - common).toNat)
      Binary.encode negative rest common
  | .finite .., .infinite _ => x
  | _, _ => 0.0 / 0.0

end FinLang.Number

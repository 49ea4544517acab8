import FinLang.Number.Shortest

namespace FinLang.Number

def zeros (n : Nat) : List Char :=
  List.replicate n '0'

-- A decimal written out in full, without an exponent.
def positional (d : Decimal) : List Char :=
  let digits := Nat.toDigits 10 d.digits
  let places := (-d.exponent).toNat
  if places = 0 then
    digits ++ zeros d.exponent.toNat
  else if places < digits.length then
    digits.take (digits.length - places) ++ '.' :: digits.drop (digits.length - places)
  else
    '0' :: '.' :: (zeros (places - digits.length) ++ digits)

def signed (negative : Bool) (text : String) : String :=
  if negative then "-" ++ text else text

-- The shortest text that reads back.
def plainText (x : Float) : String :=
  match Binary.ofFloat x with
  | .nan => "NaN"
  | .infinite negative => signed negative "inf"
  | .finite negative m e =>
    signed negative (if m = 0 then "0" else String.ofList (positional (shortest m e)))

def integerLimit : Float :=
  1e15

-- Whole numbers below the limit are written as integers, so that the sign of
-- zero is not shown.
def text (x : Float) : String :=
  if isInteger x && x.abs < integerLimit then
    signed (x < 0.0) (toString (magnitude x))
  else
    plainText x

end FinLang.Number

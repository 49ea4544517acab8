import FinLang.Failure

namespace FinLang.Number

-- Beyond this a factorial is no longer finite.
def factorialMax : Nat :=
  170

def factorialUpTo : Nat → Float
  | 0 => 1.0
  | 1 => 1.0
  | n + 1 => factorialUpTo n * Float.ofNat (n + 1)

-- The factorial of the magnitude, with the sign of the number.
def factorial (x : Float) : Except Failure Float :=
  if isInteger x then
    if factorialMax < magnitude x then
      .error (.of (.factorialOverflow x))
    else
      let product := factorialUpTo (magnitude x)
      .ok (if x < 0.0 then -product else product)
  else
    .error (.of (.factorialOf x))

-- Bitwise operands are whole numbers from -2^31 to 2^32 - 1; negative ones wrap
-- around.
def toWord (x : Float) : Except Failure UInt32 :=
  if isInteger x then
    if -2147483648.0 ≤ x && x ≤ 4294967295.0 then
      let m := magnitude x
      .ok (UInt32.ofNat (if x < 0.0 then Nat.pow 2 32 - m else m))
    else
      .error (.of (.bitwiseRange x))
  else
    .error (.of (.bitwiseInteger x))

def ofWord (w : UInt32) : Float :=
  Float.ofNat w.toNat

def ofBool (b : Bool) : Float :=
  if b then 1.0 else 0.0

-- Indices are words of 64 bits.
def maxIndex : Nat :=
  Nat.pow 2 64 - 1

-- The index that a whole number stands for, unless it is negative. A number
-- beyond the last index stands for the last one.
def index? (x : Float) : Option Nat :=
  if isInteger x && 0.0 ≤ x then some (min (magnitude x) maxIndex) else none

end FinLang.Number

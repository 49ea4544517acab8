namespace FinLang

-- A picture that the language only stores and compares. Pixels that are not
-- listed are zero; listed ones are in ascending order, and none of them is
-- zero.
structure Image where
  width : Nat
  height : Nat
  marks : List (Nat × UInt32)
deriving DecidableEq, Inhabited

namespace Image

def blank (width height : Nat) : Image :=
  ⟨width, height, []⟩

def size (i : Image) : Nat :=
  i.width * i.height

def isEmpty (i : Image) : Bool :=
  i.size == 0

def lookup (index : Nat) : List (Nat × UInt32) → UInt32
  | [] => 0
  | (i, rgba) :: rest => if i = index then rgba else lookup index rest

def insert (index : Nat) (rgba : UInt32) : List (Nat × UInt32) → List (Nat × UInt32)
  | [] => if rgba = 0 then [] else [(index, rgba)]
  | (i, old) :: rest =>
    if i < index then (i, old) :: insert index rgba rest
    else
      let after := if i = index then rest else (i, old) :: rest
      if rgba = 0 then after else (index, rgba) :: after

def inBounds (i : Image) (x y : Nat) : Bool :=
  x < i.width && y < i.height

def pixel? (i : Image) (x y : Nat) : Option UInt32 :=
  if i.inBounds x y then some (lookup (y * i.width + x) i.marks) else none

def setPixel? (i : Image) (x y : Nat) (rgba : UInt32) : Option Image :=
  if i.inBounds x y then some { i with marks := insert (y * i.width + x) rgba i.marks } else none

end Image

end FinLang

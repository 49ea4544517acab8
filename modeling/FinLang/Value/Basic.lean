import FinLang.Number.Text
import FinLang.Value.Image

namespace FinLang

-- What a variable holds, detached from the heap: links are followed and array
-- elements copied.
inductive Value where
  | null
  | numeric (n : Float)
  | string (s : String)
  | image (i : Image)
  | array (items : List Value)
deriving Inhabited

-- Numbers no farther than this from zero count as false.
def truthThreshold : Float :=
  1e-8

def Number.isTruthy (n : Float) : Bool :=
  n.abs > truthThreshold

-- Of the strings only `yes` and `true` are true, in any case.
def isTruthyText (s : String) : Bool :=
  let lower := s.toList.map Char.toLower
  lower == "yes".toList || lower == "true".toList

namespace Value

mutual

-- Numbers compare as numbers: zero has one value and NaN differs from itself.
def same : Value → Value → Bool
  | .null, .null => true
  | .numeric a, .numeric b => a == b
  | .string a, .string b => a == b
  | .image a, .image b => a == b
  | .array as, .array bs => sameList as bs
  | _, _ => false

def sameList : List Value → List Value → Bool
  | [], [] => true
  | a :: as, b :: bs => same a b && sameList as bs
  | _, _ => false

end

instance : BEq Value :=
  ⟨same⟩

def isTruthy : Value → Bool
  | .null => false
  | .numeric n => Number.isTruthy n
  | .string s => isTruthyText s
  | .image i => !i.isEmpty
  | .array items => !items.isEmpty

def typeName : Value → String
  | .null => "null"
  | .numeric _ => "numeric"
  | .string _ => "string"
  | .image _ => "image"
  | .array _ => "array"

def number? : Value → Option Float
  | .numeric n => some n
  | _ => none

def string? : Value → Option String
  | .string s => some s
  | _ => none

def imageText (i : Image) : String :=
  "<image " ++ toString i.width ++ "x" ++ toString i.height ++ ">"

mutual

-- Strings are quoted inside arrays only.
def text : Value → String
  | .null => "null"
  | .numeric n => Number.text n
  | .string s => s
  | .image i => imageText i
  | .array items => "[" ++ ", ".intercalate (itemTexts items) ++ "]"

def itemTexts : List Value → List String
  | [] => []
  | .string s :: rest => ("\"" ++ s ++ "\"") :: itemTexts rest
  | v :: rest => text v :: itemTexts rest

end

end Value

end FinLang

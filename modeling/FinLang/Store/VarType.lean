namespace FinLang

inductive VarType where
  | null
  | numeric
  | string
  | image
  | array
  | link
deriving DecidableEq, Inhabited

namespace VarType

def name : VarType → String
  | .null => "null"
  | .numeric => "numeric"
  | .string => "string"
  | .image => "image"
  | .array => "array"
  | .link => "link"

def all : List VarType :=
  [.null, .numeric, .string, .image, .array, .link]

end VarType

end FinLang

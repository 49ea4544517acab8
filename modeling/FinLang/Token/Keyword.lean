namespace FinLang

inductive Keyword where
  | ifWord | elifWord | elseWord
  | forWord | whileWord
  | continueWord | breakWord | returnWord | exitWord | gotoWord
  | varWord
deriving DecidableEq, Inhabited

namespace Keyword

def text : Keyword → String
  | .ifWord => "if"
  | .elifWord => "elif"
  | .elseWord => "else"
  | .forWord => "for"
  | .whileWord => "while"
  | .continueWord => "continue"
  | .breakWord => "break"
  | .returnWord => "return"
  | .exitWord => "exit"
  | .gotoWord => "goto"
  | .varWord => "var"

def all : List Keyword :=
  [.ifWord, .elifWord, .elseWord, .forWord, .whileWord, .continueWord, .breakWord, .returnWord,
    .exitWord, .gotoWord, .varWord]

-- Keywords are spelt in lower case only.
def ofText? (s : String) : Option Keyword :=
  all.find? fun k => k.text == s

end Keyword

end FinLang

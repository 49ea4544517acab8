namespace FinLang.Source

-- A carriage return goes with the newline that follows it.
def dropReturn (line : List Char) : List Char :=
  match line.reverse with
  | '\r' :: rest => rest.reverse
  | _ => line

-- Lines end at newlines. Text after the last newline is a line of its own,
-- kept as it is, unless it is empty.
def lineChars (current : List Char) : List Char → List (List Char)
  | [] => if current.isEmpty then [] else [current.reverse]
  | '\n' :: rest => dropReturn current.reverse :: lineChars [] rest
  | c :: rest => lineChars (c :: current) rest

def lines (text : String) : List String :=
  (lineChars [] text.toList).map String.ofList

end FinLang.Source

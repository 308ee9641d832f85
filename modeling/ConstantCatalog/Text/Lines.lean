/-! # Lines

A line ends at a line feed, and a carriage return directly before that line feed is part of the
ending. A carriage return anywhere else is an ordinary character. -/

namespace ConstantCatalog.Text
set_option autoImplicit false

/-- The lines of a text. The last one needs no line feed, and there is no line after the last line
feed. -/
def lines : List Char → List (List Char)
  | [] => []
  | '\n' :: s => [] :: lines s
  | '\r' :: '\n' :: s => [] :: lines s
  | c :: s =>
    match lines s with
    | [] => [[c]]
    | l :: ls => (c :: l) :: ls

def unlines (ls : List (List Char)) : List Char :=
  ls.flatMap (· ++ ['\n'])

end ConstantCatalog.Text

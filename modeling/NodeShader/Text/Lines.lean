import NodeShader.Text.Blank

namespace NodeShader.Text

/-- The lines of a text. A line feed ends a line and takes a carriage return right before it along;
after a final line feed no further line begins. -/
def splitLines : List Char → List (List Char)
  | [] => []
  | '\r' :: '\n' :: cs => [] :: splitLines cs
  | '\n' :: cs => [] :: splitLines cs
  | c :: cs =>
    match splitLines cs with
    | [] => [[c]]
    | l :: ls => (c :: l) :: ls

def lines (s : String) : List String := (splitLines s.toList).map String.ofList

/-- Four blanks before every line for each level. Lines without a visible character become empty. -/
def indent (s : String) (levels : Nat) : String :=
  let pad := String.ofList (List.replicate (4 * levels) ' ')
  "\n".intercalate ((lines s).map fun l ↦ if blank l then "" else pad ++ l)

end NodeShader.Text

import NodeShader.Text.Blank

namespace NodeShader.Glsl

def squeeze : List Char → List Char
  | [] => []
  | c :: cs => if c = '_' ∧ cs.head? = some '_' then squeeze cs else c :: squeeze cs

def guardStart (cs : List Char) : List Char :=
  match cs with
  | [] => ['n']
  | c :: _ => if c.isDigit then 'n' :: cs else cs

/-- The identifier made from a text: foreign characters become underscores, double underscores,
which are reserved, become single ones, and the first character is not a digit. -/
def identifier (s : String) : String :=
  String.ofList (squeeze (guardStart (s.toList.map fun c ↦ if Text.isWordChar c then c else '_')))

/-- The variable holding the output `key` of the instance called `stem`. -/
def variableName (stem key : String) : String := identifier (stem ++ "_" ++ key)

end NodeShader.Glsl

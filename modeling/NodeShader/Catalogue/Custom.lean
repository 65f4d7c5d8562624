import NodeShader.Catalogue.Basic
import NodeShader.Formula.Printer
import NodeShader.Text.Lines

namespace NodeShader.Catalogue

def functionName (symbol : String) : String := Glsl.identifier ("cf_" ++ symbol)

/-- The type a custom function returns: that of its output, or else the one its parameter names. -/
def returnType (site : Site) : GlslType :=
  ((site.outputType? "out") <|> ((site.text? "returnType").bind GlslType.ofWord?)).getD .float

def hasReturn (body : String) : Bool := (Text.words body.toList).contains "return".toList

/-- The body of a custom function. One without a `return` is an expression to be returned, and an
empty one returns zero. -/
def functionBody (body : String) (type : GlslType) : String :=
  let body := Text.trim body
  if body.isEmpty then "return " ++ type.zero ++ ";"
  else if hasReturn body then body
  else "return (" ++ Text.trimEnd (Text.dropEndWhile (· == ';') body) ++ ");"

def parameters (site : Site) : List String :=
  site.inputs.map fun p ↦ p.type.name ++ " " ++ Glsl.identifier p.key

def functionText (site : Site) : String :=
  let type := returnType site
  type.name ++ " " ++ functionName site.symbol ++ "(" ++ ", ".intercalate (parameters site) ++
    ") \x7b\n" ++ Text.indent (functionBody ((site.text? "body").getD "") type) 1 ++ "\n\x7d"

def arguments (site : Site) : List String := site.inputs.map fun p ↦ (site.read p.key p.type).text

def customFunction : NodeType where
  name := "CustomFunction"
  category := "Custom"
  inputs := [socket "a" .float "A", socket "b" .float "B"]
  outputs := [socket "out" .float "Out"]
  defaults := .ofList [("body", .string "return a + b;"), ("returnType", .string "float")]
  generator := .code fun site ↦
    let call := functionName site.symbol ++ "(" ++ ", ".intercalate (arguments site) ++ ")"
    Emission.declare { helpers := [functionText site] } site "out" (returnType site) call

/-- What a name of a formula stands for: the input with that key, the last of several. -/
def binding (site : Site) (name : String) : Option String :=
  (site.inputs.reverse.find? (·.key == name)).map fun p ↦ (site.read p.key p.type).text

/-- A formula over the inputs. One that cannot be read is reported and gives zero. -/
def formulaEmission (site : Site) : Emission :=
  let type := (site.outputType? "out").getD .float
  let source := (site.text? "expression").getD ""
  if Text.blank source then Emission.declare {} site "out" type type.zero
  else match Formula.toGlsl source (binding site) with
    | .ok text => Emission.declare {} site "out" type text
    | .error e =>
      Emission.declare { diagnostics := [.invalidFormula site.node.id e.message] } site "out" type
        type.zero

def formula : NodeType where
  name := "Expr"
  category := "Custom"
  inputs := [socket "a" .float "A", socket "b" .float "B"]
  outputs := [socket "out" .float "Out"]
  defaults := .ofList [("expression", .string "a")]
  generator := .code formulaEmission

def customs : List NodeType := [customFunction, formula]

end NodeShader.Catalogue

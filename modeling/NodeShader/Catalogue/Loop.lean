import NodeShader.Catalogue.Basic

namespace NodeShader

/-- The input whose value goes from one step of a loop to the next. -/
def carryKey : String := "carry"

def resultKey : String := "result"

def carryTypeOf (own : List Pin) (params : Params) : GlslType :=
  ((own.find? (·.key == carryKey)).map (·.type) <|>
    (((params.get? "carryType").bind Json.string?).bind GlslType.ofWord?)).getD .float

namespace Node

def carryType (n : Node) : GlslType := carryTypeOf (n.inputs.map (·.toPin)) n.params

def steps (n : Node) : List String := ((n.params.get? "steps").map Json.nodeIds).getD []

def iterations (n : Node) : Nat := ((n.params.get? "iterations").bind Json.count?).getD 4

end Node

namespace Catalogue

/-- A loop with nothing to do hands on what it carries. -/
def loop : NodeType where
  name := "Loop"
  category := "Iteration"
  role := .loop
  inputs := [socket carryKey .float "Carry"]
  outputs := [socket resultKey .float "Result"]
  defaults := .ofList [("steps", .array []), ("iterations", .int 4), ("carryType", .string "float")]
  generator := .code fun site ↦
    let type := carryTypeOf site.ownInputs site.params
    Emission.declare {} site resultKey type (site.read carryKey type).text

end Catalogue

end NodeShader

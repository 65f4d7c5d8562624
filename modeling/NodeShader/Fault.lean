import NodeShader.Glsl.Type

namespace NodeShader

inductive Fault where
  | cycle (nodes : List String)
  | noOutput
  | noPreview (node : String)
  | mismatch (source output : String) (sourceType : GlslType)
      (target input : String) (targetType : GlslType)
deriving DecidableEq

namespace Fault

def message : Fault → String
  | cycle nodes => "graph error: cycle detected through nodes [" ++ ", ".intercalate nodes ++ "]"
  | noOutput => "graph error: no terminal output (the graph has no reachable Output node)"
  | noPreview node =>
    "graph error: no terminal output (preview target '" ++ node ++ "' does not exist)"
  | mismatch source output sourceType target input targetType =>
    "internal error: " ++ source ++ "." ++ output ++ " (" ++ sourceType.title ++ ") cannot feed " ++
      target ++ "." ++ input ++ " (" ++ targetType.title ++ ")"

def isMissingTerminal : Fault → Bool
  | noOutput | noPreview _ => true
  | _ => false

end Fault

/-- A problem of one node, which the shader survives. -/
inductive Diagnostic where
  | missingStep (loop step : String)
  | unknownType (node typeName : String)
  | invalidFormula (node message : String)
deriving DecidableEq

namespace Diagnostic

def node : Diagnostic → String
  | missingStep loop _ => loop
  | unknownType node _ => node
  | invalidFormula node _ => node

def message : Diagnostic → String
  | missingStep loop step => "loop " ++ loop ++ ": step '" ++ step ++ "' no longer exists"
  | unknownType node typeName => "node " ++ node ++ ": unknown node type '" ++ typeName ++ "'"
  | invalidFormula node message => "node " ++ node ++ ": invalid expression: " ++ message

end Diagnostic

end NodeShader

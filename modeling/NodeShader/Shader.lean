import NodeShader.Catalogue
import NodeShader.Draft
import NodeShader.Schedule

namespace NodeShader

/-- The statement that writes the colour of the fragment. Outputs write their own colour, of other
nodes the first output is shown. -/
def terminalWrite (role : Role) (outputs : Exports) (fragColor : String) : Option String :=
  match role with
  | .output alpha =>
    (lookup "color" outputs).map fun c ↦
      if alpha then fragColor ++ " = " ++ c.text ++ ";"
      else fragColor ++ " = vec4(" ++ c.text ++ ", 1.0);"
  | .plain | .loop =>
    outputs.head?.map fun o ↦ fragColor ++ " = vec4(" ++ o.2.displayColour ++ ", 1.0);"

def shownPart (text : String) : List String :=
  if Text.blank text then [] else [Text.trimEnd text]

def mainText (blocks : List String) (terminal : String) : String :=
  "void main() \x7b\n" ++ String.join (blocks.map fun b ↦ Text.indent b 1 ++ "\n") ++
    Text.indent terminal 1 ++ "\n\x7d"

def assemble (p : Prologue) (helpers : Functions) (blocks : List String) (terminal : String) :
    String :=
  "\n\n".intercalate (shownPart p.header ++ helpers.blocks.map Text.trimEnd ++
    shownPart p.declarations ++ [mainText blocks terminal]) ++ "\n"

inductive Target where
  | output
  | preview (node : String)
deriving DecidableEq

def Target.missing : Target → Fault
  | .output => .noOutput
  | .preview node => .noPreview node

structure Shader where
  source : String
  /-- The variables of each node by the keys of its outputs. -/
  variableNames : Dict (Dict String)
  diagnostics : List Diagnostic

def Graph.outputNode? (g : Graph) (lib : Library) : Option String :=
  (g.nodes.find? fun n ↦ (lib.find? n.typeName).any fun t ↦ t.role matches .output _).map (·.id)

def Target.node? (g : Graph) (lib : Library) : Target → Option String
  | .output => g.outputNode? lib
  | .preview node => some node

/-- The variables by key; of outputs with one key the last. -/
def variablesOf (outputs : Exports) : Dict String := .ofList (outputs.map fun o ↦ (o.1, o.2.text))

def orFault {α : Type} (f : Fault) : Option α → Except Fault α
  | some a => .ok a
  | none => .error f

def compile (g : Graph) (lib : Library) (settings : Settings) (target : Target) :
    Except Fault Shader := do
  let id ← orFault target.missing (target.node? g lib)
  let plan ← schedule g lib id
  let t ← orFault target.missing ((g.find? id).bind fun n ↦ lib.find? n.typeName)
  let draft ← Draft.ofOrder g lib settings plan.order
  let terminal ← orFault target.missing
    ((draft.outputs.get? id).bind fun outputs ↦
      terminalWrite t.role outputs settings.prologue.fragColor)
  return {
    source := assemble settings.prologue draft.helpers (draft.blocks.map blockText) terminal
    variableNames := .ofList (draft.outputs.entries.map fun o ↦ (o.1, variablesOf o.2))
    diagnostics := mergeNew plan.diagnostics draft.diagnostics }

end NodeShader

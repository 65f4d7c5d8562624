import NodeShader.Fault
import NodeShader.Glsl.Identifier
import NodeShader.Glsl.Literal
import NodeShader.Graph.Basic
import NodeShader.Json.Param

namespace NodeShader

structure Statement where
  type : GlslType
  name : String
  value : String
deriving DecidableEq

def Statement.text (s : Statement) : String := s.type.name ++ " " ++ s.name ++ " = " ++ s.value ++ ";"

def blockText (ss : List Statement) : String := "\n".intercalate (ss.map Statement.text)

abbrev Exports := List (String × Term)

structure Emission where
  statements : List Statement := []
  outputs : Exports := []
  helpers : List String := []
  diagnostics : List Diagnostic := []
deriving DecidableEq

/-- What a type of node is to the compiler beside the code that it emits. -/
inductive Role where
  | plain
  /-- Writes the colour of the fragment, with an alpha of its own or not. -/
  | output (alpha : Bool)
  /-- Is unrolled. -/
  | loop
deriving DecidableEq

structure Profile where
  name : String
  category : String
  role : Role := .plain
  inputs : List Socket := []
  outputs : List Socket := []
  defaults : Params := .empty
  /-- Functions that the emitted code calls, each after the ones it calls itself. -/
  helpers : List String := []

structure Inlet extends Pin where
  wire : Option Wire
deriving DecidableEq

namespace Node

/-- The inputs of the node itself, or of its type if it has none. -/
def inlets (n : Node) (p : Profile) : List Inlet :=
  if n.inputs.isEmpty then p.inputs.map fun s ↦ ⟨s.toPin, none⟩
  else n.inputs.map fun s ↦ ⟨s.toPin, s.wire⟩

def outlets (n : Node) (p : Profile) : List Pin :=
  if n.outputs.isEmpty then p.outputs.map (·.toPin) else n.outputs.map (·.toPin)

end Node

/-- Where an instance of a node is emitted: the whole node and what its type declares, the names that
the instance may use and the expressions wired to its inputs. -/
structure Site where
  node : Node
  profile : Profile
  stem : String
  symbol : String
  wires : Dict Term

namespace Site

variable (s : Site)

def params : Params := s.node.params

def ownInputs : List Pin := s.node.inputs.map (·.toPin)

def inputs : List Pin := (s.node.inlets s.profile).map (·.toPin)

def outputs : List Pin := s.node.outlets s.profile

def variableName (key : String) : String := Glsl.variableName s.stem key

/-- A parameter of the instance, or else of its type. -/
def param? (key : String) : Option Json := s.params.get? key <|> s.profile.defaults.get? key

def single (key : String) (default : Binary32) : Binary32 :=
  ((s.param? key).bind Json.single?).getD default

def count (key : String) (default : Nat) : Nat := ((s.param? key).bind Json.count?).getD default

def text? (key : String) : Option String := (s.param? key).bind Json.string?

def literal? (key : String) (type : GlslType) : Option String :=
  (s.param? key).bind fun v ↦
    match type with
    | .float => v.single?.map Glsl.floatLiteral
    | _ => (v.vector? type.components).map Glsl.vectorLiteral

/-- What an input reads at the given type: its wire, else the parameter of the same name, else zero. -/
def read (key : String) (type : GlslType) : Term :=
  match s.wires.get? key with
  | some x => x.coerce type
  | none =>
    match s.literal? key type with
    | some text => ⟨type, text⟩
    | none => .zero type

def inputType? (key : String) : Option GlslType := (s.inputs.find? (·.key == key)).map (·.type)

def outputType? (key : String) : Option GlslType := (s.outputs.find? (·.key == key)).map (·.type)

end Site

namespace Emission

/-- Declares a variable that no other node sees. -/
def bind (e : Emission) (site : Site) (key : String) (type : GlslType) (value : String) : Emission :=
  { e with statements := e.statements ++ [⟨type, site.variableName key, value⟩] }

def declare (e : Emission) (site : Site) (key : String) (type : GlslType) (value : String) :
    Emission :=
  { e.bind site key type value with
    outputs := e.outputs ++ [(key, ⟨type, site.variableName key⟩)] }

end Emission

end NodeShader

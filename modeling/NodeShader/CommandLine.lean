import NodeShader.Shader

namespace NodeShader.CommandLine

structure Options where
  graph : Option String := none
  preview : Option String := none
  config : Option String := none
  out : Option String := none
  validate : Bool := false
deriving DecidableEq

inductive UsageError where
  | missingValue (flag : String)
  | unknown (arg : String)
deriving DecidableEq

def usage : String :=
  "supported: --graph <graph.json>, --preview <nodeId>, --config <config.json>, --out <file>, --validate"

def UsageError.message : UsageError → String
  | missingValue flag => "missing value for " ++ flag
  | unknown arg => "unknown argument: " ++ arg ++ " (" ++ usage ++ ")"

def Options.set? (o : Options) (flag value : String) : Option Options :=
  match flag with
  | "--graph" => some { o with graph := some value }
  | "--preview" => some { o with preview := some value }
  | "--config" => some { o with config := some value }
  | "--out" => some { o with out := some value }
  | _ => none

def takesValue (flag : String) : Bool := ["--graph", "--preview", "--config", "--out"].contains flag

/-- Reads arguments from left to right. The argument after a flag that takes a value is the value,
whatever it looks like; of repeated options the last counts. -/
def Options.read (o : Options) : List String → Except UsageError Options
  | [] => .ok o
  | flag :: rest =>
    if flag = "--validate" then Options.read { o with validate := true } rest
    else match rest with
      | [] => .error (if takesValue flag then .missingValue flag else .unknown flag)
      | value :: rest =>
        match o.set? flag value with
        | some o => Options.read o rest
        | none => .error (.unknown flag)

def parse (args : List String) : Except UsageError Options := Options.read {} args

inductive Failure where
  | usage (e : UsageError)
  | noGraph
  | unreadableGraph (path : String)
  | malformedGraph (path : String)
  | unreadableConfig (path : String)
  | malformedConfig (path : String)
  | fault (f : Fault)
  | unwritable (path : String)
deriving DecidableEq

def Failure.message : Failure → String
  | usage e => e.message
  | noGraph => "--graph is required (" ++ CommandLine.usage ++ ")"
  | unreadableGraph path => "failed to read graph json at " ++ path
  | malformedGraph path => "in " ++ path
  | unreadableConfig path => "failed to read compiler config at " ++ path
  | malformedConfig path => "in " ++ path
  | fault f => "shader did not compile, " ++ f.message
  | unwritable path => "failed to write shader to " ++ path

structure Product where
  source : String
  destination : Option String
deriving DecidableEq

section

variable {m : Type → Type} [Monad m] (readFile? : String → m (Option String))

def loadGraph (path : String) : ExceptT Failure m Graph := do
  match ← (readFile? path : m _) with
  | none => throw (.unreadableGraph path)
  | some text =>
    match Graph.parse? text with
    | none => throw (.malformedGraph path)
    | some g => return g

def loadSettings (path : String) : ExceptT Failure m Settings := do
  match ← (readFile? path : m _) with
  | none => throw (.unreadableConfig path)
  | some text =>
    match Settings.parse? text with
    | none => throw (.malformedConfig path)
    | some s => return s

/-- Does what the arguments ask for. Validation needs the desktop prologue. -/
def run (args : List String) : ExceptT Failure m Product := do
  let o ← match parse args with
    | .error e => throw (.usage e)
    | .ok o => pure o
  let some path := o.graph | throw .noGraph
  let g ← loadGraph readFile? path
  let settings ← match o.config with
    | some path => loadSettings readFile? path
    | none => pure {}
  let settings := if o.validate then { settings with prologue := .glsl450 } else settings
  let target := match o.preview with
    | some id => .preview id
    | none => .output
  match compile g .builtin settings target with
  | .error f => throw (.fault f)
  | .ok shader => return ⟨shader.source, o.out⟩

end

end NodeShader.CommandLine

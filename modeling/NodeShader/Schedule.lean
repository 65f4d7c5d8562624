import NodeShader.Catalogue.Loop
import NodeShader.Distinct

namespace NodeShader

structure Schedule where
  order : List String := []
  diagnostics : List Diagnostic := []
deriving DecidableEq

namespace Schedule

variable (g : Graph) (lib : Library)

def sources (n : Node) (t : NodeType) : List Node :=
  (n.inlets t).filterMap fun i ↦ i.wire.bind fun w ↦ g.find? w.node

/-- One step of a loop: the nodes it reads, and the loops met so far. A loop that is met again is
itself among the nodes read, and if it is still under way that is a cycle. -/
def stepReads (inner : Node → List String → List Node × List String)
    (found : List Node × List String) (id : String) : List Node × List String :=
  match g.find? id with
  | none => found
  | some step =>
    match lib.find? step.typeName with
    | none => found
    | some t =>
      let (reads, seen) := found
      let reads := reads ++ sources g step t
      if t.role = .loop then
        if step.id ∈ seen then (reads ++ [step], seen)
        else
          let (more, seen) := inner step (step.id :: seen)
          (reads ++ more, seen)
      else (reads, seen)

def loopReads : (room : Nat) → Node → List String → List Node × List String
  | 0, _, seen => ([], seen)
  | room + 1, n, seen => n.steps.foldl (stepReads g lib (loopReads room)) ([], seen)

def reads (n : Node) : List Node :=
  match lib.find? n.typeName with
  | none => []
  | some t =>
    sources g n t ++
      if t.role = .loop then (loopReads g lib g.nodes.length n [n.id]).1 else []

def isKnown (n : Node) : Bool := lib.contains n.typeName

def dependencies (n : Node) : List String :=
  distinct (((reads g lib n).filter (isKnown lib)).map (·.id))

def unknowns (n : Node) : List Diagnostic :=
  ((reads g lib n).filter fun m ↦ !isKnown lib m).map fun m ↦ .unknownType m.id m.typeName

/-- Goes to a node unless it is done. One that is still under way closes a cycle. -/
def enter (inner : List String → Node → Schedule → Except Fault Schedule) (path : List String)
    (s : Schedule) (id : String) : Except Fault Schedule :=
  if id ∈ s.order then .ok s
  else if id ∈ path then .error (.cycle (path.dropWhile (· != id)))
  else match g.find? id with
    | none => .ok s
    | some n => inner path n s

/-- Adds what a node depends on and then the node itself. The nodes under way are in `path`, and no
path is longer than the graph has nodes. -/
def visit : (room : Nat) → (path : List String) → Node → Schedule → Except Fault Schedule
  | 0, path, _, _ => .error (.cycle path)
  | room + 1, path, n, s => do
    let s := { s with diagnostics := mergeNew s.diagnostics (unknowns g lib n) }
    let s ← (dependencies g lib n).foldlM (enter g (visit room) (path ++ [n.id])) s
    return { s with order := s.order ++ [n.id] }

end Schedule

def schedule (g : Graph) (lib : Library) (target : String) : Except Fault Schedule :=
  match g.find? target with
  | none => .error (.noPreview target)
  | some n =>
    if Schedule.isKnown lib n then Schedule.visit g lib g.nodes.length [] n {}
    else .ok { diagnostics := [.unknownType n.id n.typeName] }

end NodeShader

import NodeShader.Catalogue.Loop
import NodeShader.Distinct
import NodeShader.Scope

namespace NodeShader

structure Bench where
  graph : Graph
  library : Library
  maxLoopIterations : Nat
  /-- The variables of the nodes emitted so far. -/
  outputs : Dict Exports

def outputKeys (n : Node) (t : NodeType) : List String :=
  mergeNew ((n.outlets t).map (·.key)) (t.outputs.map (·.key))

abbrev Emitter := Node → NodeType → String → Dict Term → Scope → Except Fault (Emission × Scope)

namespace Bench

variable (b : Bench)

def source? (w : Wire) : Option Term := (b.outputs.get? w.node).bind (lookup w.output)

def connect (n : Node) (wires : Dict Term) (i : Inlet) : Except Fault (Dict Term) :=
  match i.wire with
  | none => .ok wires
  | some w =>
    match b.source? w with
    | none => .ok wires
    | some x =>
      if x.type.feeds i.type then .ok (wires.insert i.key x)
      else .error (.mismatch w.node w.output x.type n.id i.key i.type)

def resolve (n : Node) (t : NodeType) : Except Fault (Dict Term) :=
  (n.inlets t).foldlM (b.connect n) .empty

/-- Emits an instance; loops are left to `unroll`. -/
def instantiate (unroll : Emitter) : Emitter := fun n t stem wires scope ↦
  if t.role = .loop then unroll n t stem wires scope
  else
    let (symbol, scope) := scope.symbol n.id
    .ok (t.emission { n.site t stem wires with symbol := symbol }, scope)

/-- The input of a step that takes what the loop carries: the first one without a wire that has its
type, or else the first one that it can feed. -/
def carryInput? (step : Node) (t : NodeType) (wires : Dict Term) (type : GlslType) :
    Option String :=
  let unwired := (step.inlets t).filter fun i ↦ !wires.contains i.key
  ((unwired.find? fun i ↦ i.type == type) <|> (unwired.find? fun i ↦ type.feeds i.type)).map (·.key)

def withCarry (step : Node) (t : NodeType) (wires : Dict Term) (type : GlslType) (carry : Term) :
    Dict Term :=
  match carryInput? step t wires type with
  | some key => wires.insert key carry
  | none => wires

structure Turn where
  scope : Scope
  carry : Term
  emission : Emission := {}

namespace Turn

def skip (turn : Turn) (step : Node) : Turn :=
  let d := .unknownType step.id step.typeName
  { turn with emission := { turn.emission with diagnostics := addNew turn.emission.diagnostics d } }

/-- Takes over what a step emitted. Its first output of the right type is carried on. -/
def append (turn : Turn) (type : GlslType) (e : Emission) (scope : Scope) : Turn where
  scope := scope.record e
  carry := ((e.outputs.find? (·.2.type == type)).map (·.2)).getD turn.carry
  emission := { turn.emission with
    statements := turn.emission.statements ++ e.statements
    helpers := turn.emission.helpers ++ e.helpers
    diagnostics := mergeNew turn.emission.diagnostics e.diagnostics }

end Turn

def takeStep (unroll : Emitter) (type : GlslType) (stem : String) (turn : Turn)
    (k : Nat) (id : String) : Except Fault Turn :=
  match b.graph.find? id with
  | none => .ok turn
  | some step =>
    match b.library.find? step.typeName with
    | none => .ok (turn.skip step)
    | some t => do
      let (stepStem, scope) :=
        turn.scope.reserve (stem ++ "_i" ++ toString k ++ "_" ++ id) (outputKeys step t)
      let wires ← b.resolve step t
      let (e, scope) ←
        instantiate unroll step t stepStem (withCarry step t wires type turn.carry) scope
      return turn.append type e scope

def plan (iterations : Nat) (steps : List String) : List (Nat × String) :=
  (List.range iterations).flatMap fun k ↦ steps.map fun id ↦ (k, id)

theorem mem_plan {iterations k : Nat} {steps : List String} {id : String} :
    (k, id) ∈ plan iterations steps ↔ k < iterations ∧ id ∈ steps := by
  simp [plan]

def missingSteps (n : Node) : List String := n.steps.filter fun id ↦ (b.graph.find? id).isNone

def turns (n : Node) : Nat := min n.iterations b.maxLoopIterations

/-- Emits a loop as straight code, each step once for every iteration. A loop inside a loop is
unrolled in turn, and one that is inside itself never ends: that is a cycle, found when there is no
`room` for another level. A loop with a missing step gives zero. -/
def unroll : (room : Nat) → Emitter
  | 0, n, _, _, _, _ => .error (.cycle [n.id])
  | room + 1, n, t, stem, wires, scope => do
    let type := n.carryType
    let site := n.site t stem wires
    if !(b.missingSteps n).isEmpty then
      let e : Emission := { diagnostics := (b.missingSteps n).map (.missingStep n.id) }
      return (e.declare site resultKey type type.zero, scope)
    else if n.steps.isEmpty || b.turns n == 0 then return (t.emission site, scope)
    else
      let start : Turn := { scope, carry := site.read carryKey type }
      let turn ← (plan (b.turns n) n.steps).foldlM
        (fun turn s ↦ b.takeStep (unroll room) type stem turn s.1 s.2) start
      return (turn.emission.declare site resultKey type turn.carry.text, turn.scope)

def emit (room : Nat) : Emitter := instantiate (b.unroll room)

end Bench

end NodeShader

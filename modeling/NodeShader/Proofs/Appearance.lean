import NodeShader.Proofs.Canonical
import NodeShader.Proofs.Catalogue
import NodeShader.Shader
import Mathlib.Data.List.Forall2

namespace NodeShader

/-- A change of nodes that shows in nothing that is made of them with types of the library. -/
structure Unseen (lib : Library) (f : Node → Node) : Prop where
  id_eq : ∀ n, (f n).id = n.id
  typeName : ∀ n, (f n).typeName = n.typeName
  steps : ∀ n, (f n).steps = n.steps
  iterations : ∀ n, (f n).iterations = n.iterations
  carryType : ∀ n, (f n).carryType = n.carryType
  inlets : ∀ n t, (f n).inlets t = n.inlets t
  outlets : ∀ n t, (f n).outlets t = n.outlets t
  read : ∀ n t stem wires key type,
    ((f n).site t stem wires).read key type = (n.site t stem wires).read key type
  emission : ∀ name t, lib.find? name = some t → ∀ n stem wires symbol,
    t.emission { (f n).site t stem wires with symbol := symbol } =
      t.emission { n.site t stem wires with symbol := symbol }

def Graph.mapNodes (f : Node → Node) (g : Graph) : Graph := ⟨g.nodes.map f⟩

theorem Graph.find?_mapNodes {f : Node → Node} (hf : ∀ n, (f n).id = n.id) (g : Graph) (id : String) :
    (g.mapNodes f).find? id = (g.find? id).map f := by
  have hid : (fun n : Node ↦ (f n).id == id) = fun n ↦ n.id == id := by
    funext n
    rw [hf]
  rw [Graph.find?, Graph.mapNodes, List.find?_map]
  exact congrArg (fun p ↦ (g.nodes.find? p).map f) hid

theorem Graph.length_mapNodes (f : Node → Node) (g : Graph) :
    (g.mapNodes f).nodes.length = g.nodes.length := List.length_map _

namespace Unseen

open Schedule

variable {lib : Library} {f : Node → Node}

theorem find?_eq (hf : Unseen lib f) (g : Graph) (id : String) :
    (g.mapNodes f).find? id = (g.find? id).map f := Graph.find?_mapNodes hf.id_eq g id

theorem isKnown_eq (hf : Unseen lib f) (n : Node) : isKnown lib (f n) = isKnown lib n := by
  rw [isKnown, hf.typeName, isKnown]

theorem sources_eq (hf : Unseen lib f) (g : Graph) (n : Node) (t : NodeType) :
    sources (g.mapNodes f) (f n) t = (sources g n t).map f := by
  simp only [sources, hf.inlets, hf.find?_eq, List.map_filterMap, Option.map_bind]
  rfl

theorem stepReads_eq (hf : Unseen lib f) {g : Graph}
    {inner inner' : Node → List String → List Node × List String}
    (h : ∀ n seen, inner' (f n) seen = (inner n seen).map (·.map f) id)
    (found : List Node × List String) (c : String) :
    stepReads (g.mapNodes f) lib inner' (found.map (·.map f) id) c =
      (stepReads g lib inner found c).map (·.map f) id := by
  simp only [stepReads, hf.find?_eq]
  cases g.find? c with
  | none => rfl
  | some n =>
    simp only [Option.map_some, hf.typeName]
    cases lib.find? n.typeName with
    | none => rfl
    | some t =>
      simp only [Prod.map_fst, Prod.map_snd, hf.sources_eq, hf.id_eq, id]
      split
      · split
        · simp
        · simp [h]
      · simp

theorem loopReads_eq (hf : Unseen lib f) (g : Graph) (room : Nat) (n : Node) (seen : List String) :
    loopReads (g.mapNodes f) lib room (f n) seen =
      (loopReads g lib room n seen).map (·.map f) id := by
  induction room generalizing n seen with
  | zero => rfl
  | succ room ih =>
    have hstart : (([] : List Node), seen) = Prod.map (·.map f) id ([], seen) := rfl
    rw [loopReads, loopReads, hf.steps, hstart]
    exact List.foldl_hom _ fun found c ↦ hf.stepReads_eq ih found c

theorem reads_eq (hf : Unseen lib f) (g : Graph) (n : Node) :
    reads (g.mapNodes f) lib (f n) = (reads g lib n).map f := by
  simp only [reads, hf.typeName]
  cases lib.find? n.typeName with
  | none => rfl
  | some t =>
    simp only [hf.sources_eq, Graph.length_mapNodes, hf.id_eq, hf.loopReads_eq, List.map_append]
    split <;> rfl

theorem dependencies_eq (hf : Unseen lib f) (g : Graph) (n : Node) :
    dependencies (g.mapNodes f) lib (f n) = dependencies g lib n := by
  simp only [dependencies, hf.reads_eq, List.filter_map, List.map_map, Function.comp_def,
    hf.id_eq, hf.isKnown_eq]

theorem unknowns_eq (hf : Unseen lib f) (g : Graph) (n : Node) :
    unknowns (g.mapNodes f) lib (f n) = unknowns g lib n := by
  simp only [unknowns, hf.reads_eq, List.filter_map, List.map_map, Function.comp_def, hf.id_eq,
    hf.typeName, hf.isKnown_eq]

theorem visit_eq (hf : Unseen lib f) (g : Graph) (room : Nat) (path : List String) (n : Node)
    (s : Schedule) : visit (g.mapNodes f) lib room path (f n) s = visit g lib room path n s := by
  induction room generalizing path n s with
  | zero => rfl
  | succ room ih =>
    have henter : enter (g.mapNodes f) (visit (g.mapNodes f) lib room) =
        enter g (visit g lib room) := by
      funext path s id
      simp only [enter, hf.find?_eq]
      cases g.find? id with
      | none => rfl
      | some m => simp only [Option.map_some, ih]
    simp only [visit, hf.unknowns_eq, hf.dependencies_eq, hf.id_eq, henter]

theorem schedule_eq (hf : Unseen lib f) (g : Graph) (target : String) :
    schedule (g.mapNodes f) lib target = schedule g lib target := by
  simp only [schedule, hf.find?_eq]
  cases g.find? target with
  | none => rfl
  | some n =>
    simp only [Option.map_some, Graph.length_mapNodes, hf.visit_eq, hf.isKnown_eq, hf.typeName, hf.id_eq]

section

variable {b : Bench} {unroll unroll' : Emitter} {n : Node} {t : NodeType}

theorem resolve_eq (hf : Unseen b.library f) (g : Graph) (n : Node) (t : NodeType) :
    { b with graph := g }.resolve (f n) t = b.resolve n t := by
  have hconnect : { b with graph := g }.connect (f n) = b.connect n := by
    funext wires i
    simp only [Bench.connect, hf.id_eq]
    rfl
  rw [Bench.resolve, Bench.resolve, hf.inlets, hconnect]

theorem missingSteps_eq (hf : Unseen b.library f) (n : Node) :
    { b with graph := b.graph.mapNodes f }.missingSteps (f n) = b.missingSteps n := by
  simp [Bench.missingSteps, hf.find?_eq, hf.steps]

theorem instantiate_eq (hf : Unseen lib f) (ht : lib.find? n.typeName = some t)
    (h : unroll' (f n) t = unroll n t) :
    Bench.instantiate unroll' (f n) t = Bench.instantiate unroll n t := by
  funext stem wires scope
  simp only [Bench.instantiate, h, hf.id_eq, hf.emission _ t ht]

theorem takeStep_eq (hf : Unseen b.library f)
    (h : ∀ n t, b.library.find? n.typeName = some t → unroll' (f n) t = unroll n t) :
    { b with graph := b.graph.mapNodes f }.takeStep unroll' = b.takeStep unroll := by
  funext type stem turn k c
  simp only [Bench.takeStep, hf.find?_eq]
  cases b.graph.find? c with
  | none => rfl
  | some m =>
    simp only [Option.map_some, hf.typeName]
    cases ht : b.library.find? m.typeName with
    | none => simp only [Bench.Turn.skip, hf.id_eq, hf.typeName]
    | some t =>
      simp only [hf.resolve_eq, hf.instantiate_eq ht (h m t ht), outputKeys, Bench.withCarry,
        Bench.carryInput?, hf.inlets, hf.outlets]

theorem unroll_eq (hf : Unseen b.library f) (room : Nat) (ht : b.library.find? n.typeName = some t) :
    { b with graph := b.graph.mapNodes f }.unroll room (f n) t = b.unroll room n t := by
  induction room generalizing n t with
  | zero =>
    funext stem wires scope
    simp only [Bench.unroll, hf.id_eq]
  | succ room ih =>
    funext stem wires scope
    have hturns : { b with graph := b.graph.mapNodes f }.turns (f n) = b.turns n := by
      rw [Bench.turns, hf.iterations]
      rfl
    have hsite : (f n).site t stem wires =
        { (f n).site t stem wires with symbol := Glsl.identifier n.id } := by
      rw [← hf.id_eq n]
      rfl
    have hemission : t.emission ((f n).site t stem wires) = t.emission (n.site t stem wires) := by
      rw [hsite]
      exact hf.emission _ t ht n stem wires _
    have hdeclare : ∀ (e : Emission) type value,
        e.declare ((f n).site t stem wires) resultKey type value =
          e.declare (n.site t stem wires) resultKey type value := fun _ _ _ ↦ rfl
    simp only [Bench.unroll, hf.missingSteps_eq, hf.carryType, hf.steps, hf.id_eq, hf.read, hturns,
      hemission, hdeclare, hf.takeStep_eq fun m u ↦ ih]

end

theorem addNode_eq (hf : Unseen lib f) (g : Graph) (settings : Settings) (room : Nat) :
    Draft.addNode (g.mapNodes f) lib settings room = Draft.addNode g lib settings room := by
  funext d id
  simp only [Draft.addNode, hf.find?_eq]
  cases g.find? id with
  | none => rfl
  | some n =>
    simp only [Option.map_some, hf.typeName]
    cases ht : lib.find? n.typeName with
    | none => rfl
    | some t =>
      have hbench : Unseen (Draft.bench g lib settings d).library f := hf
      have hresolve : (Draft.bench (g.mapNodes f) lib settings d).resolve (f n) t =
        (Draft.bench g lib settings d).resolve n t := hbench.resolve_eq _ n t
      have hemit : (Draft.bench (g.mapNodes f) lib settings d).emit room (f n) t =
        (Draft.bench g lib settings d).emit room n t := hf.instantiate_eq ht (hbench.unroll_eq room ht)
      simp only [hresolve, hemit, hf.id_eq, outputKeys, hf.outlets]

theorem compile_eq (hf : Unseen lib f) (g : Graph) (settings : Settings) (target : Target) :
    compile (g.mapNodes f) lib settings target = compile g lib settings target := by
  have hnode : target.node? (g.mapNodes f) lib = target.node? g lib := by
    cases target with
    | preview node => rfl
    | output =>
      simp only [Target.node?, Graph.outputNode?, Graph.mapNodes, List.find?_map, Option.map_map,
        Function.comp_def, hf.id_eq, hf.typeName]
  have htype : ∀ id, (((g.mapNodes f).find? id).bind fun n ↦ lib.find? n.typeName) =
      (g.find? id).bind fun n ↦ lib.find? n.typeName := by
    intro id
    simp only [hf.find?_eq, Option.bind_map, Function.comp_def, hf.typeName]
  simp only [compile, hnode, hf.schedule_eq, htype, Draft.ofOrder, Draft.ofOrderWithin,
    Graph.length_mapNodes, hf.addNode_eq]

end Unseen

theorem Json.bind_eq_of_canonical {α : Type} {read : Json → Option α} (hread : ∀ v, read v.canonical = read v)
    {x y : Option Json} (h : x.map canonical = y.map canonical) : x.bind read = y.bind read := by
  have hbind : ∀ o : Option Json, (o.map canonical).bind read = o.bind read := by
    intro o
    simp only [Option.bind_map, Function.comp_def, hread]
  rw [← hbind x, h, hbind y]

/-- The nodes differ in nothing but their places, the labels of their sockets and the signs of zeros
among their parameters. -/
structure Node.Resembles (m n : Node) : Prop where
  id_eq : m.id = n.id
  typeName : m.typeName = n.typeName
  params : ∀ key, (m.params.get? key).map Json.canonical = (n.params.get? key).map Json.canonical
  inputs : m.inputs.map (fun s ↦ (⟨s.toPin, s.wire⟩ : Inlet)) =
    n.inputs.map fun s ↦ (⟨s.toPin, s.wire⟩ : Inlet)
  outputs : m.outputs.map (·.toPin) = n.outputs.map (·.toPin)

namespace Node.Resembles

variable {m n : Node}

theorem inlets (h : m.Resembles n) (p : Profile) : m.inlets p = n.inlets p := by
  have hempty := congrArg List.isEmpty h.inputs
  simp only [List.isEmpty_map] at hempty
  rw [Node.inlets, hempty, h.inputs, Node.inlets]

theorem outlets (h : m.Resembles n) (p : Profile) : m.outlets p = n.outlets p := by
  have hempty := congrArg List.isEmpty h.outputs
  simp only [List.isEmpty_map] at hempty
  rw [Node.outlets, hempty, h.outputs, Node.outlets]

theorem ownInputs (h : m.Resembles n) : m.inputs.map (·.toPin) = n.inputs.map (·.toPin) := by
  have hpins := congrArg (List.map Inlet.toPin) h.inputs
  simpa only [List.map_map, Function.comp_def] using hpins

theorem steps (h : m.Resembles n) : m.steps = n.steps := by
  have hsteps := congrArg (Option.map Json.nodeIds) (h.params "steps")
  simp only [Option.map_map, Function.comp_def, Json.nodeIds_canonical] at hsteps
  rw [Node.steps, hsteps, Node.steps]

theorem iterations (h : m.Resembles n) : m.iterations = n.iterations := by
  rw [Node.iterations, Json.bind_eq_of_canonical Json.count?_canonical (h.params "iterations"),
    Node.iterations]

theorem carryTypeOf_eq (h : m.Resembles n) (own : List Pin) :
    carryTypeOf own m.params = carryTypeOf own n.params := by
  rw [carryTypeOf, Json.bind_eq_of_canonical Json.string?_canonical (h.params "carryType"), carryTypeOf]

theorem carryType (h : m.Resembles n) : m.carryType = n.carryType := by
  rw [Node.carryType, h.ownInputs, h.carryTypeOf_eq, Node.carryType]

theorem site_eq (h : m.Resembles n) (t : NodeType) (stem : String) (wires : Dict Term) :
    m.site t stem wires = { n.site t stem wires with node := m } := by
  simp only [Node.site, h.id_eq]

section

variable {s : Site} {key : String}

theorem param? (h : n.Resembles s.node) :
    ({ s with node := n }.param? key).map Json.canonical = (s.param? key).map Json.canonical := by
  have hor : ∀ x y : Option Json,
      (x <|> y).map Json.canonical = (x.map Json.canonical <|> y.map Json.canonical) := by
    intro x y
    cases x <;> rfl
  simp only [Site.param?, Site.params, hor, h.params key]

theorem bind_param? {α : Type} {read : Json → Option α} (h : n.Resembles s.node)
    (hread : ∀ v, read v.canonical = read v) :
    ({ s with node := n }.param? key).bind read = (s.param? key).bind read :=
  Json.bind_eq_of_canonical hread h.param?

theorem canonical_single (h : n.Resembles s.node) (default : Binary32) :
    ({ s with node := n }.single key default).canonical = (s.single key default).canonical := by
  have hgetD : ∀ o : Option Binary32,
      (o.getD default).canonical = (o.map Binary.canonical).getD default.canonical := by
    intro o
    cases o <;> rfl
  simp only [Site.single, hgetD, Option.map_bind]
  rw [h.bind_param? Json.single?_canonical]

theorem count (h : n.Resembles s.node) (default : Nat) :
    { s with node := n }.count key default = s.count key default := by
  rw [Site.count, h.bind_param? Json.count?_canonical, Site.count]

theorem text? (h : n.Resembles s.node) : { s with node := n }.text? key = s.text? key :=
  h.bind_param? Json.string?_canonical

theorem literal? (h : n.Resembles s.node) (type : GlslType) :
    { s with node := n }.literal? key type = s.literal? key type := by
  apply h.bind_param?
  intro v
  have hfloat : v.canonical.single?.map Glsl.floatLiteral = v.single?.map Glsl.floatLiteral := by
    have hsingle := congrArg (Option.map Glsl.floatLiteral) (Json.single?_canonical v)
    simpa only [Option.map_map, Function.comp_def, Glsl.floatLiteral_canonical] using hsingle
  have hvector : (v.canonical.vector? type.components).map Glsl.vectorLiteral =
      (v.vector? type.components).map Glsl.vectorLiteral := by
    have hvector := congrArg (Option.map Glsl.vectorLiteral) (Json.vector?_canonical type.components v)
    simpa only [Option.map_map, Function.comp_def, Glsl.vectorLiteral_canonical] using hvector
  cases type with
  | float => exact hfloat
  | _ => exact hvector

theorem read (h : n.Resembles s.node) (type : GlslType) :
    { s with node := n }.read key type = s.read key type := by
  simp only [Site.read, h.literal?]

theorem site_inputs (h : n.Resembles s.node) : { s with node := n }.inputs = s.inputs := by
  simp only [Site.inputs, h.inlets]

theorem outputType? (h : n.Resembles s.node) :
    { s with node := n }.outputType? key = s.outputType? key := by
  simp only [Site.outputType?, Site.outputs, h.outlets]

end

end Node.Resembles

/-- No node that resembles another is told from it by the code that is emitted for it. -/
def NodeType.Discreet (t : NodeType) : Prop :=
  ∀ (site : Site) (n : Node), n.Resembles site.node → t.emit { site with node := n } = t.emit site

namespace Catalogue

theorem discreet_of_emit {t : NodeType} {r : Site → Recipe}
    (h : ∀ site, t.emit site = (r site).emit site)
    (hr : ∀ (site : Site) (n : Node), n.Resembles site.node → r { site with node := n } = r site) :
    t.Discreet := by
  intro site n hn
  rw [h, h, hr site n hn]
  exact Recipe.emit_congr rfl fun _ _ p _ ↦ hn.read p.type

theorem discreet_wave (name f : String) : (wave name f).Discreet := by
  refine discreet_of_emit (fun _ ↦ rfl) fun site n hn ↦ ?_
  have hphase : hasPhase { site with node := n } = hasPhase site := by
    have hsame : ({ site with node := n }.single "phase" .zero).same .zero =
        (site.single "phase" .zero).same .zero := by
      rw [Bool.eq_iff_iff, Binary.same_zero_iff, Binary.same_zero_iff, ← Binary.magnitude_canonical,
        hn.canonical_single, Binary.magnitude_canonical]
    rw [hasPhase, hsame, hasPhase]
  simp only [hphase]

theorem discreet_fbm : fbm.Discreet := by
  refine discreet_of_emit (fun _ ↦ rfl) fun site n hn ↦ ?_
  simp only [octaves, hn.count]

theorem discreet_customFunction : customFunction.Discreet := by
  intro site n hn
  have htype : returnType { site with node := n } = returnType site := by
    simp only [returnType, hn.outputType?, hn.text?]
  have hfunction : functionText { site with node := n } = functionText site := by
    simp only [functionText, parameters, htype, hn.text?, hn.site_inputs]
  have harguments : arguments { site with node := n } = arguments site := by
    simp only [arguments, hn.site_inputs, hn.read]
  simp only [emit_customFunction, htype, hfunction, harguments]
  rfl

theorem discreet_formula : formula.Discreet := by
  intro site n hn
  have hbinding : binding { site with node := n } = binding site := by
    funext name
    simp only [binding, hn.site_inputs, hn.read]
  simp only [emit_formula, formulaEmission, hn.text?, hn.outputType?, hbinding, hn.id_eq]
  rfl

theorem discreet_loop : loop.Discreet := by
  intro site n hn
  have htype : carryTypeOf (Site.ownInputs { site with node := n }) (Site.params { site with node := n }) =
      carryTypeOf site.ownInputs site.params := by
    simp only [Site.ownInputs, Site.params, hn.ownInputs, hn.carryTypeOf_eq]
  simp only [emit_loop, htype, hn.read]
  rfl

theorem discreet_of_mem : ∀ t ∈ all, t.Discreet :=
  forall_mem_all
    (fun _ _ _ hr ↦ discreet_of_emit (congrFun (emit_of_recipe? hr)) fun _ _ _ ↦ rfl)
    (discreet_wave _ _) (discreet_wave _ _) discreet_fbm discreet_customFunction discreet_formula discreet_loop

end Catalogue

/-- A change of nodes into ones that resemble them is not seen where no generator sees it. -/
theorem Unseen.of_resembles {lib : Library} {f : Node → Node} (hf : ∀ n, (f n).Resembles n)
    (hlib : ∀ name t, lib.find? name = some t → ∀ site : Site,
      t.emit { site with node := f site.node } = t.emit site) : Unseen lib f where
  id_eq n := (hf n).id_eq
  typeName n := (hf n).typeName
  steps n := (hf n).steps
  iterations n := (hf n).iterations
  carryType n := (hf n).carryType
  inlets n t := (hf n).inlets t
  outlets n t := (hf n).outlets t
  read n t stem wires key type := by
    rw [(hf n).site_eq]
    exact Node.Resembles.read (s := n.site t stem wires) (hf n) type
  emission name t ht n stem wires symbol := by
    have hemit := hlib name t ht { n.site t stem wires with symbol := symbol }
    rw [(hf n).site_eq]
    exact congrArg (fun e : Emission ↦ { e with helpers := t.helpers ++ e.helpers }) hemit

/-- The nodes have the same type, parameters and sockets, apart from labels. -/
structure Node.Alike (m n : Node) : Prop where
  typeName : m.typeName = n.typeName
  params : m.params = n.params
  inputs : m.inputs.map (fun s ↦ (⟨s.toPin, s.wire⟩ : Inlet)) =
    n.inputs.map fun s ↦ (⟨s.toPin, s.wire⟩ : Inlet)
  outputs : m.outputs.map (·.toPin) = n.outputs.map (·.toPin)

theorem Node.Alike.resembles {m n : Node} (h : m.Alike n) (hid : m.id = n.id) : m.Resembles n where
  id_eq := hid
  typeName := h.typeName
  params key := by rw [h.params]
  inputs := h.inputs
  outputs := h.outputs

/-- The generator makes no use of the place of a node and of the labels of its sockets. -/
def NodeType.IgnoresLayout (t : NodeType) : Prop :=
  ∀ (site : Site) (n : Node), n.id = site.node.id → n.Alike site.node →
    t.emit { site with node := n } = t.emit site

theorem NodeType.Discreet.ignoresLayout {t : NodeType} (h : t.Discreet) : t.IgnoresLayout :=
  fun site n hid hn ↦ h site n (hn.resembles hid)

def Library.IgnoresLayout (lib : Library) : Prop :=
  ∀ name t, lib.find? name = some t → t.IgnoresLayout

namespace Node

def bare (n : Node) : Node where
  id := n.id
  typeName := n.typeName
  params := n.params
  inputs := n.inputs.map fun s ↦ { s with label := "" }
  outputs := n.outputs.map fun s ↦ { s with label := "" }

def canonical (n : Node) : Node := { n with params := n.params.map Json.canonical }

theorem bare_alike (n : Node) : n.bare.Alike n where
  typeName := rfl
  params := rfl
  inputs := by simp [bare, Function.comp_def]
  outputs := by simp [bare, Function.comp_def]

theorem Alike.bare_eq {m n : Node} (h : m.Alike n) (hid : m.id = n.id) : m.bare = n.bare := by
  have hinputs := congrArg (List.map fun i : Inlet ↦
    ({ key := i.key, type := i.type, wire := i.wire } : InputSocket)) h.inputs
  have houtputs := congrArg (List.map fun p : Pin ↦ ({ key := p.key, type := p.type } : Socket)) h.outputs
  simp only [List.map_map] at hinputs houtputs
  simp only [bare, Node.mk.injEq]
  exact ⟨hid, h.typeName, trivial, h.params, hinputs, houtputs⟩

theorem canonical_resembles (n : Node) : n.canonical.Resembles n where
  id_eq := rfl
  typeName := rfl
  params key := by
    simp only [canonical, Dict.get?_map, Option.map_map, Function.comp_def, Json.canonical_canonical]
  inputs := rfl
  outputs := rfl

theorem canonical_bare_eq_of_same {m n : Node} (h : m.same n = true) :
    m.bare.canonical = n.bare.canonical := by
  simp only [same, Bool.and_eq_true, beq_iff_eq] at h
  obtain ⟨⟨⟨⟨⟨⟨hid, htype⟩, -⟩, -⟩, hparams⟩, hinputs⟩, houtputs⟩ := h
  have hfields := Json.canonicalFields_eq_of_same hparams
  rw [Json.canonicalFields_eq_map, Json.canonicalFields_eq_map] at hfields
  simp only [canonical, bare, hid, htype, hfields, hinputs, houtputs]

end Node

def Graph.bare (g : Graph) : Graph := g.mapNodes Node.bare

theorem Graph.find?_bare (g : Graph) (id : String) : g.bare.find? id = (g.find? id).map Node.bare :=
  find?_mapNodes (f := Node.bare) (fun _ ↦ rfl) g id

/-- Places and labels are nothing to the shader where they are nothing to the generators. -/
theorem compile_bare {lib : Library} (hlib : lib.IgnoresLayout) (g : Graph) (settings : Settings)
    (target : Target) : compile g.bare lib settings target = compile g lib settings target := by
  have hunseen : Unseen lib Node.bare := .of_resembles (fun n ↦ n.bare_alike.resembles rfl)
    fun name t ht site ↦ hlib name t ht site _ rfl site.node.bare_alike
  exact hunseen.compile_eq g settings target

theorem Graph.mapNodes_eq_of_same {g h : Graph} (hsame : g.same h = true) :
    g.bare.mapNodes Node.canonical = h.bare.mapNodes Node.canonical := by
  simp only [same, Bool.and_eq_true, beq_iff_eq, List.all_eq_true] at hsame
  have hnodes : List.Forall₂ (fun m n : Node ↦ m.bare.canonical = n.bare.canonical) g.nodes h.nodes :=
    List.forall₂_iff_zip.2 ⟨hsame.1, fun hmn ↦ Node.canonical_bare_eq_of_same (hsame.2 _ hmn)⟩
  simp only [mapNodes, bare, List.map_map, Graph.mk.injEq]
  rw [← List.forall₂_eq_eq_eq, List.forall₂_map_left_iff, List.forall₂_map_right_iff]
  exact hnodes

/-- Graphs that are equal by value have the same shader. -/
theorem compile_eq_of_same {lib : Library} (hlib : ∀ name t, lib.find? name = some t → t.Discreet)
    {g h : Graph} (hsame : g.same h = true) (settings : Settings) (target : Target) :
    compile g lib settings target = compile h lib settings target := by
  have hlayout : lib.IgnoresLayout := fun name t ht ↦ (hlib name t ht).ignoresLayout
  have hunseen : Unseen lib Node.canonical := .of_resembles Node.canonical_resembles
    fun name t ht site ↦ hlib name t ht site _ site.node.canonical_resembles
  calc compile g lib settings target
    _ = compile (g.bare.mapNodes Node.canonical) lib settings target := by
      rw [hunseen.compile_eq, compile_bare hlayout]
    _ = compile (h.bare.mapNodes Node.canonical) lib settings target := by
      rw [Graph.mapNodes_eq_of_same hsame]
    _ = compile h lib settings target := by rw [hunseen.compile_eq, compile_bare hlayout]

end NodeShader

import NodeShader.Proofs.Threading
import Mathlib.Algebra.Group.Int.Defs

namespace NodeShader

open Schedule

/-- An integer is the count it says, zero if it is negative, and none at all if it is too large. -/
theorem Json.count?_int (z : Int) : (Json.int z).count? = if z < 2 ^ 32 then some z.toNat else none := by
  have hlimit : countLimit + 1 = 2 ^ 32 := rfl
  cases z with
  | ofNat k =>
    have hle : k ≤ countLimit ↔ Int.ofNat k < 2 ^ 32 := by
      simp only [Int.ofNat_eq_natCast]
      omega
    simp only [Json.int, count?, hle]
    rfl
  | negSucc k =>
    have hlt : Int.negSucc k < 2 ^ 32 := by omega
    rw [if_pos hlt]
    rfl

theorem Node.iterations_of_int {n : Node} {z : Int} (hz : n.params.get? "iterations" = some (.int z)) :
    n.iterations = if z < 2 ^ 32 then z.toNat else 4 := by
  simp only [iterations, hz, Option.bind_some, Json.count?_int]
  split <;> rfl

theorem Site.count_of_int {site : Site} {key : String} {z : Int}
    (hz : site.params.get? key = some (.int z)) (default : Nat) :
    site.count key default = if z < 2 ^ 32 then z.toNat else default := by
  have hparam : site.param? key = some (.int z) := by simp [param?, hz]
  simp only [count, hparam, Option.bind_some, Json.count?_int]
  split <;> rfl

namespace Bench

variable {b : Bench} {room : Nat} {n : Node} {stem : String} {wires : Dict Term}
  {scope scope' : Scope} {e : Emission} {type : GlslType} {steps : List String} {start turn : Turn}

variable (b) in
/-- The instance is the step with the id, emitted in an iteration of a loop: its stem is made of that of
the loop, the number of the iteration and the id. -/
structure IsStep (room : Nat) (stem : String) (k : Nat) (id : String) (i : Instance) : Prop where
  present : Present b.graph b.library id i.node i.type
  emitted : ∃ (before reserved after : Scope),
    before.reserve (stem ++ "_i" ++ toString k ++ "_" ++ id) (outputKeys i.node i.type) =
      (i.stem, reserved) ∧ b.emit room i.node i.type i.stem i.wires reserved = .ok (i.emission, after)

variable (b) in
/-- The instances are those of one iteration: each step of a known type once, in order. -/
def IsRound (room : Nat) (stem : String) (steps : List String) (k : Nat) (round : List Instance) : Prop :=
  List.Forall₂ (b.IsStep room stem k) (steps.filter (Known b.graph b.library)) round

namespace IsRound

variable {k : Nat} {id : String} {i : Instance} {round : List Instance}

theorem skip (h : b.IsRound room stem steps k round) (hid : ¬ Known b.graph b.library id) :
    b.IsRound room stem (steps ++ [id]) k round := by
  simpa [IsRound, List.filter_append, hid] using h

theorem snoc (h : b.IsRound room stem steps k round) (hi : b.IsStep room stem k id i) :
    b.IsRound room stem (steps ++ [id]) k (round ++ [i]) := by
  have hid : Known b.graph b.library id := ⟨i.node, i.type, hi.present⟩
  have hlast : [id].filter (Known b.graph b.library) = [id] := by simp [hid]
  rw [IsRound, List.filter_append, hlast]
  exact List.rel_append h (.cons hi .nil)

end IsRound

theorem round_of_foldlM {k : Nat}
    (h : steps.foldlM (fun turn id ↦ b.takeStep (b.unroll room) type stem turn k id) start = .ok turn) :
    ∃ round, b.IsRound room stem steps k round ∧
      turn.emission.statements = start.emission.statements ++ round.flatMap (·.emission.statements) := by
  refine foldlM_eq_ok_progress (fun done turn ↦ ∃ round, b.IsRound room stem done k round ∧
    turn.emission.statements = start.emission.statements ++ round.flatMap (·.emission.statements)) h
    ⟨[], .nil, by simp⟩ ?_
  rintro done turn turn' id - hstep ⟨round, hround, hstatements⟩
  rcases takeStep_eq_ok hstep with ⟨hnone, rfl⟩ | ⟨m, hm, hu, rfl⟩ |
    ⟨m, u, wires, stepStem, reserved, e, after, hmu, -, hstem, he, rfl⟩
  · exact ⟨round, hround.skip fun ⟨m, u, hmu⟩ ↦ by simp [hmu.node] at hnone, hstatements⟩
  · exact ⟨round, hround.skip (not_known_of_find? hm hu), hstatements⟩
  · have hi : b.IsStep room stem k id ⟨m, u, stepStem, withCarry m u wires type turn.carry, e⟩ :=
      ⟨hmu, turn.scope, reserved, after, hstem, he⟩
    exact ⟨round ++ [_], hround.snoc hi, by simp [Turn.append, hstatements]⟩

theorem plan_succ (count : Nat) (steps : List String) :
    plan (count + 1) steps = plan count steps ++ steps.map fun id ↦ (count, id) := by
  simp [plan, List.range_succ]

theorem rounds_of_foldlM {count : Nat} (h : (plan count steps).foldlM
      (fun turn s ↦ b.takeStep (b.unroll room) type stem turn s.1 s.2) start = .ok turn) :
    ∃ rounds, List.Forall₂ (b.IsRound room stem steps) (List.range count) rounds ∧
      turn.emission.statements =
        start.emission.statements ++ rounds.flatten.flatMap (·.emission.statements) := by
  induction count generalizing turn with
  | zero =>
    cases h
    exact ⟨[], .nil, by simp⟩
  | succ count ih =>
    rw [plan_succ, List.foldlM_append, bind_eq_ok] at h
    obtain ⟨middle, hmiddle, hlast⟩ := h
    rw [List.foldlM_map] at hlast
    obtain ⟨rounds, hrounds, hstatements⟩ := ih hmiddle
    obtain ⟨round, hround, hlast⟩ := round_of_foldlM hlast
    refine ⟨rounds ++ [round], ?_, ?_⟩
    · rw [List.range_succ]
      exact List.rel_append hrounds (.cons hround .nil)
    · simp [hlast, hstatements]

theorem plan_of_idle (h : n.steps = [] ∨ b.turns n = 0) : plan (b.turns n) n.steps = [] := by
  rcases h with h | h <;> simp [plan, h]

/-- A loop that misses no step is emitted as the iterations that it runs and then its result. -/
theorem rounds_of_emit (hm : b.missingSteps n = [])
    (he : b.emit (room + 1) n Catalogue.loop stem wires scope = .ok (e, scope')) :
    ∃ rounds value, List.Forall₂ (b.IsRound room stem n.steps) (List.range (b.turns n)) rounds ∧
      e.statements = rounds.flatten.flatMap (·.emission.statements) ++
        [⟨n.carryType, Glsl.variableName stem resultKey, value⟩] := by
  have hplan : ∃ turn, (plan (b.turns n) n.steps).foldlM
        (fun turn s ↦ b.takeStep (b.unroll room) n.carryType stem turn s.1 s.2)
        { scope := scope, carry := (n.site Catalogue.loop stem wires).read carryKey n.carryType } =
        .ok turn ∧
      e.statements = turn.emission.statements ++
        [⟨n.carryType, Glsl.variableName stem resultKey, turn.carry.text⟩] := by
    rw [emit_of_loop rfl] at he
    rcases unroll_eq_ok he with ⟨hgap, -⟩ | ⟨-, hidle, -, rfl⟩ | ⟨-, -, -, room', turn, hroom, hrun, -, rfl⟩
    · exact absurd hm hgap
    · rw [plan_of_idle hidle]
      exact ⟨_, rfl, rfl⟩
    · obtain rfl : room = room' := Nat.succ.inj hroom
      exact ⟨turn, hrun, rfl⟩
  obtain ⟨turn, hrun, he⟩ := hplan
  obtain ⟨rounds, hrounds, hstatements⟩ := rounds_of_foldlM hrun
  exact ⟨rounds, turn.carry.text, hrounds, by rw [he, hstatements]; rfl⟩

variable (b) in
/-- The step with the id cannot be emitted: a wire does not fit, or the step is a loop that fails. -/
def Fails (room : Nat) (id : String) (f : Fault) : Prop :=
  ∃ m u, Present b.graph b.library id m u ∧ (b.resolve m u = .error f ∨
    ∃ stem wires scope, b.emit room m u stem wires scope = .error f)

theorem ends_takeStep (turn : Turn) (k : Nat) (id : String) :
    Ends (b.takeStep (b.unroll room) type stem turn k id) (fun _ ↦ True) (b.Fails room id) := by
  unfold takeStep
  split
  · trivial
  · rename_i m hm
    split
    · trivial
    · rename_i u hu
      have hwires : Ends (b.resolve m u) (fun _ ↦ True) (b.Fails room id) := by
        cases hresolve : b.resolve m u with
        | ok wires => trivial
        | error f => exact ⟨m, u, ⟨hm, hu⟩, .inl hresolve⟩
      refine hwires.bind fun wires _ ↦ ?_
      cases hemit : instantiate (b.unroll room) m u _ (withCarry m u wires type turn.carry) _ with
      | ok r => trivial
      | error f => exact ⟨m, u, ⟨hm, hu⟩, .inr ⟨_, _, _, hemit⟩⟩

/-- A loop fails only where one of its steps does. -/
theorem ends_emit_loop : Ends (b.emit (room + 1) n Catalogue.loop stem wires scope) (fun _ ↦ True)
    fun f ↦ ∃ id ∈ n.steps, b.Fails room id f := by
  rw [emit_of_loop rfl]
  simp only [Bench.unroll]
  split
  · trivial
  · split
    · trivial
    · refine Ends.bind ?_ fun _ (_ : True) ↦ trivial
      refine Ends.foldlM (fun _ _ ↦ True) _ trivial fun _ s turn hs _ ↦ ?_
      exact (ends_takeStep turn s.1 s.2).mono (fun _ ↦ id) fun f hf ↦ ⟨s.2, (mem_plan.1 hs).2, hf⟩

/-- How often a loop runs that is told so by an integer. -/
theorem turns_of_int {z : Int} (hz : n.params.get? "iterations" = some (.int z)) :
    (z < 2 ^ 32 → (b.turns n : Int) = min (max z 0) b.maxLoopIterations) ∧
      (2 ^ 32 ≤ z → b.turns n = min 4 b.maxLoopIterations) := by
  rw [turns, Node.iterations_of_int hz]
  constructor
  · intro hlt
    rw [if_pos hlt]
    omega
  · intro hle
    rw [if_neg (by omega)]

end Bench

/-- How many octaves are added up by a node that is told so by an integer. -/
theorem Site.octaves_of_int {site : Site} {z : Int} (hz : site.params.get? "octaves" = some (.int z)) :
    (z < 2 ^ 32 → (Catalogue.octaves site : Int) = min (max z 1) 8) ∧
      (2 ^ 32 ≤ z → Catalogue.octaves site = 5) := by
  have hclamp : ∀ k : Nat,
      ((Nat.max 1 (Nat.min Catalogue.maxOctaves k) : Nat) : Int) = min (max (k : Int) 1) 8 := by
    intro k
    change ((max 1 (min 8 k) : Nat) : Int) = _
    omega
  rw [Catalogue.octaves, count_of_int hz]
  constructor
  · intro hlt
    rw [if_pos hlt, hclamp]
    omega
  · intro hle
    rw [if_neg (by omega)]
    rfl

theorem Catalogue.statements_fbm (site : Site) :
    (fbm.emission site).statements = [⟨.float, site.variableName "value",
      "0.5 + 0.5 * fbm(" ++ (site.read "uv" .vec2).text ++ " * " ++ (site.read "scale" .float).text ++
        ", " ++ toString (octaves site) ++ ", " ++ (site.read "gain" .float).text ++ ")"⟩] := by
  simp [NodeType.emission, NodeType.emit, fbm, Recipe.emit, Recipe.addLine, Emission.declare, Emission.bind, Line.fill,
    Piece.fill, plane, scalar, String.join]

/-- A loop runs as often as an integer tells it to, but not less than never and not more than the settings
allow, and noise adds up as many octaves, but at least one and at most eight. An integer from `2 ^ 32` on
tells them nothing: it is passed over for the four iterations or five octaves of a node without a count. -/
theorem counts_of_int (b : Bench) (z : Int) :
    (∀ (n : Node) room stem wires scope, n.params.get? "iterations" = some (.int z) →
      (∀ id ∈ n.steps, (b.graph.find? id).isSome) → ∃ count : Nat,
        (z < 2 ^ 32 → (count : Int) = min (max z 0) b.maxLoopIterations) ∧
        (2 ^ 32 ≤ z → count = min 4 b.maxLoopIterations) ∧
        Ends (b.emit (room + 1) n Catalogue.loop stem wires scope)
          (fun r ↦ ∃ (rounds : List (List Bench.Instance)) (value : String),
            List.Forall₂ (b.IsRound room stem n.steps) (List.range count) rounds ∧
            r.1.statements = rounds.flatten.flatMap (·.emission.statements) ++
              [⟨n.carryType, Glsl.variableName stem resultKey, value⟩])
          fun f ↦ ∃ id ∈ n.steps, b.Fails room id f) ∧
    ∀ (n : Node) room stem wires scope, n.params.get? "octaves" = some (.int z) →
      ∃ (count : Nat) (e : Emission) (scope' : Scope),
        (z < 2 ^ 32 → (count : Int) = min (max z 1) 8) ∧ (2 ^ 32 ≤ z → count = 5) ∧
        b.emit room n Catalogue.fbm stem wires scope = .ok (e, scope') ∧
        e.statements = [⟨.float, Glsl.variableName stem "value",
          "0.5 + 0.5 * fbm(" ++ ((n.site Catalogue.fbm stem wires).read "uv" .vec2).text ++ " * " ++
            ((n.site Catalogue.fbm stem wires).read "scale" .float).text ++ ", " ++ toString count ++ ", " ++
            ((n.site Catalogue.fbm stem wires).read "gain" .float).text ++ ")"⟩] := by
  constructor
  · intro n room stem wires scope hz hsteps
    have hm : b.missingSteps n = [] := List.filter_eq_nil_iff.2 fun id hid ↦ by
      simpa using Option.isSome_iff_ne_none.1 (hsteps id hid)
    obtain ⟨hlt, hle⟩ := Bench.turns_of_int (b := b) hz
    refine ⟨b.turns n, hlt, hle, Bench.ends_emit_loop.with_eq.imp ?_⟩
    rintro ⟨e, scope'⟩ ⟨he, -⟩
    exact Bench.rounds_of_emit hm he
  · intro n room stem wires scope hz
    have hoctaves : (n.site Catalogue.fbm stem wires).params.get? "octaves" = some (.int z) := hz
    obtain ⟨hlt, hle⟩ := Site.octaves_of_int hoctaves
    exact ⟨_, _, _, hlt, hle, Bench.emit_of_not_loop nofun, Catalogue.statements_fbm _⟩

def Sample.repeated (count : Int) : Node where
  id := "loop"
  typeName := "Loop"
  params := .ofList [("iterations", .int count), ("steps", .array [.string "s"])]

def Sample.cloud (count : Int) : Node where
  id := "cloud"
  typeName := "Fbm"
  params := .ofList [("octaves", .int count)]

def Sample.counted (count : Int) : Graph :=
  ⟨[Sample.repeated count, { id := "s", typeName := "Add" }, Sample.cloud count]⟩

/-- A hundred iterations are too many for the settings, and a hundred octaves for the noise. -/
theorem counts_of_int_hundred :
    ∃ b : Bench, b = Draft.bench (Sample.counted 100) .builtin { maxLoopIterations := 2 } {} ∧
    (∃ e scope' rounds, b.emit 1 (Sample.repeated 100) Catalogue.loop "loop" .empty {} = .ok (e, scope') ∧
      e.statements.map (·.name) = ["loop_i0_s_out", "loop_i1_s_out", "loop_result"] ∧
      List.Forall₂ (b.IsRound 0 "loop" ["s"]) (List.range 2) rounds) ∧
    ∃ e scope', b.emit 1 (Sample.cloud 100) Catalogue.fbm "cloud" .empty {} = .ok (e, scope') ∧
      e.statements.map Statement.text =
        ["float cloud_value = 0.5 + 0.5 * fbm(vec2(0.0) * 4.0, 8, 0.5);"] := by
  refine ⟨_, rfl, ?_, ?_⟩
  · have hrun : ((Draft.bench (Sample.counted 100) .builtin { maxLoopIterations := 2 } {}).emit 1
        (Sample.repeated 100) Catalogue.loop "loop" .empty {}).map (·.1.statements.map (·.name)) =
        .ok ["loop_i0_s_out", "loop_i1_s_out", "loop_result"] := by decide +kernel
    obtain ⟨⟨e, scope'⟩, he, hnames⟩ := exists_of_map_eq_ok hrun
    obtain ⟨count, hcount, -, hends⟩ := (counts_of_int
      (Draft.bench (Sample.counted 100) .builtin { maxLoopIterations := 2 } {}) 100).1
      (Sample.repeated 100) 0 "loop" .empty {} rfl (by decide)
    obtain rfl : count = 2 := Int.ofNat.inj (hcount (by decide))
    rw [he] at hends
    obtain ⟨rounds, -, hrounds, -⟩ := hends
    exact ⟨e, scope', rounds, he, hnames, hrounds⟩
  · obtain ⟨count, e, scope', hcount, -, he, hstatements⟩ :=
      (counts_of_int (Draft.bench (Sample.counted 100) .builtin { maxLoopIterations := 2 } {}) 100).2
        (Sample.cloud 100) 1 "cloud" .empty {} rfl
    obtain rfl : count = 8 := Int.ofNat.inj (hcount (by decide))
    exact ⟨e, scope', he, by rw [hstatements]; decide +kernel⟩

theorem counts_dropped :
    min (max (2 ^ 32 : Int) 0) 6 = 6 ∧ min (max (2 ^ 32 : Int) 1) 8 = 8 ∧
    (Draft.ofOrder (Sample.counted (2 ^ 32)) .builtin { maxLoopIterations := 6 } ["loop"]).map
      (fun d ↦ d.blocks.map fun block ↦ block.map (·.name)) =
      .ok [["loop_i0_s_out", "loop_i1_s_out", "loop_i2_s_out", "loop_i3_s_out", "loop_result"]] ∧
    (Draft.ofOrder (Sample.counted (2 ^ 32)) .builtin {} ["cloud"]).map (fun d ↦ d.blocks.map blockText) =
      .ok ["float cloud_value = 0.5 + 0.5 * fbm(vec2(0.0) * 4.0, 5, 0.5);"] := by
  decide +kernel

end NodeShader

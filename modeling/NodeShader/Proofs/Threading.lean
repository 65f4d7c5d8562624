import NodeShader.Proofs.Inlets
import NodeShader.Proofs.Instances
import NodeShader.Proofs.Record

namespace NodeShader

open Schedule

def IsFirst {α : Type} (p : α → Prop) (xs : List α) (x : α) : Prop :=
  ∃ l r, xs = l ++ x :: r ∧ p x ∧ ∀ y ∈ l, ¬ p y

theorem IsFirst.mem {α : Type} {p : α → Prop} {xs : List α} {x : α} (h : IsFirst p xs x) : x ∈ xs := by
  obtain ⟨l, r, rfl, -⟩ := h
  simp

theorem IsFirst.of {α : Type} {p : α → Prop} {xs : List α} {x : α} (h : IsFirst p xs x) : p x := by
  obtain ⟨-, -, -, hx, -⟩ := h
  exact hx

namespace Bench

structure Instance where
  node : Node
  type : NodeType
  stem : String
  wires : Dict Term
  emission : Emission

/-- What a loop carries on from an instance: the first output of the type, or else what came in. -/
def Instance.handsOn (i : Instance) (type : GlslType) (carry : Term) : Term :=
  ((i.emission.outputs.find? (·.2.type == type)).map (·.2)).getD carry

def carryAfter (type : GlslType) (start : Term) (runs : List Instance) : Term :=
  runs.foldl (fun carry i ↦ i.handsOn type carry) start

/-- The wires of a step with what is carried: at the first open input of just that type, or else at the
first one that it can feed, or nowhere. -/
inductive Bound (inlets : List Inlet) (wires : Dict Term) (type : GlslType) (carry : Term) :
    Dict Term → Prop
  | same {i : Inlet}
      (hi : IsFirst (fun j ↦ wires.get? j.key = none ∧ j.type = type) inlets i) :
      Bound inlets wires type carry (wires.insert i.key carry)
  | near {i : Inlet} (hnone : ∀ j ∈ inlets, wires.get? j.key = none → j.type ≠ type)
      (hi : IsFirst (fun j ↦ wires.get? j.key = none ∧ type.feeds j.type) inlets i) :
      Bound inlets wires type carry (wires.insert i.key carry)
  | nowhere (hnone : ∀ j ∈ inlets, wires.get? j.key = none → ¬ type.feeds j.type) :
      Bound inlets wires type carry wires

/-- The instances are emitted one after the other with what was carried up to each of them, which is
always of the type. -/
structure Passes (b : Bench) (type : GlslType) (start : Term) (runs : List Instance) : Prop where
  wires : ∀ done i, done ++ [i] <+: runs → ∃ wires, b.resolve i.node i.type = .ok wires ∧
    Bound (i.node.inlets i.type) wires type (carryAfter type start done) i.wires
  types : ∀ done, done <+: runs → (carryAfter type start done).type = type

/-- How an instance comes about. A loop is the code of its steps, all of them as often as it runs, with
a value that goes from step to step, and the declaration of the last value; one that misses a step is
just zero. -/
inductive Threads (b : Bench) : Instance → Prop
  | plain {n : Node} {t : NodeType} {stem : String} {wires : Dict Term}
      (hn : Present b.graph b.library n.id n t) (ht : t.role ≠ .loop) (symbol : String) :
      Threads b ⟨n, t, stem, wires, t.emission { n.site t stem wires with symbol := symbol }⟩
  | gap {n : Node} {t : NodeType} {stem : String} {wires : Dict Term} {e : Emission}
      (hn : Present b.graph b.library n.id n t) (ht : t.role = .loop) (hm : b.missingSteps n ≠ [])
      (hs : e.statements = [⟨n.carryType, Glsl.variableName stem resultKey, n.carryType.zero⟩])
      (ho : e.outputs = [(resultKey, ⟨n.carryType, Glsl.variableName stem resultKey⟩)]) :
      Threads b ⟨n, t, stem, wires, e⟩
  | loop {n : Node} {t : NodeType} {stem : String} {wires : Dict Term} {e : Emission} {start : Term}
      {runs : List Instance}
      (hn : Present b.graph b.library n.id n t) (ht : t.role = .loop) (hm : b.missingSteps n = [])
      (hstart : Reading (n.site t stem wires) carryKey n.carryType start)
      (hruns : runs.map (fun i ↦ (i.node, i.type)) =
        (List.replicate (b.turns n) (n.steps.filterMap b.found?)).flatten)
      (hpasses : b.Passes n.carryType start runs)
      (hsteps : ∀ i ∈ runs, Threads b i)
      (hs : e.statements = runs.flatMap (·.emission.statements) ++
        [⟨n.carryType, Glsl.variableName stem resultKey, (carryAfter n.carryType start runs).text⟩])
      (ho : e.outputs = [(resultKey, ⟨n.carryType, Glsl.variableName stem resultKey⟩)]) :
      Threads b ⟨n, t, stem, wires, e⟩

variable {b : Bench} {n m : Node} {t u : NodeType} {wires : Dict Term} {type : GlslType}
  {start carry : Term} {runs : List Instance} {i : Instance}

theorem type_handsOn (i : Instance) (h : carry.type = type) : (i.handsOn type carry).type = type := by
  unfold Instance.handsOn
  cases ho : i.emission.outputs.find? (·.2.type == type) with
  | none => exact h
  | some o => simpa using List.find?_some ho

theorem carryAfter_snoc (type : GlslType) (start : Term) (runs : List Instance) (i : Instance) :
    carryAfter type start (runs ++ [i]) = i.handsOn type (carryAfter type start runs) := by
  simp [carryAfter]

namespace Passes

theorem nil (h : start.type = type) : b.Passes type start [] where
  wires done i hdone := by simp at hdone
  types done hdone := by
    rw [List.prefix_nil.1 hdone]
    exact h

theorem type_carryAfter (h : b.Passes type start runs) : (carryAfter type start runs).type = type :=
  h.types runs List.prefix_rfl

theorem snoc (h : b.Passes type start runs) (hw : b.resolve i.node i.type = .ok wires)
    (hb : Bound (i.node.inlets i.type) wires type (carryAfter type start runs) i.wires) :
    b.Passes type start (runs ++ [i]) where
  wires done j hdone := by
    rcases List.prefix_concat_iff.1 hdone with heq | hdone
    · obtain ⟨rfl, hj⟩ := List.append_inj' heq rfl
      cases hj
      exact ⟨wires, hw, hb⟩
    · exact h.wires done j hdone
  types done hdone := by
    rcases List.prefix_concat_iff.1 hdone with rfl | hdone
    · rw [carryAfter_snoc]
      exact type_handsOn i h.type_carryAfter
    · exact h.types done hdone

end Passes

section

variable {p : Inlet → Bool} {q : Inlet → Prop} {is : List Inlet} {i : Inlet}

theorem isFirst_of_find? (hq : ∀ j, p j ↔ q j)
    (h : (is.filter fun j ↦ !wires.contains j.key).find? p = some i) :
    IsFirst (fun j ↦ wires.get? j.key = none ∧ q j) is i := by
  rw [List.find?_filter, List.find?_eq_some_iff_append] at h
  obtain ⟨hi, l, r, his, hl⟩ := h
  obtain ⟨hopen, hp⟩ := of_decide_eq_true hi
  refine ⟨l, r, his, ⟨by simpa [Dict.contains] using hopen, (hq i).1 hp⟩, fun j hj hboth ↦ ?_⟩
  have hnot := hl j hj
  simp [Dict.contains, hboth.1, (hq j).2 hboth.2] at hnot

theorem not_of_find? (hq : ∀ j, p j ↔ q j)
    (h : (is.filter fun j ↦ !wires.contains j.key).find? p = none) :
    ∀ j ∈ is, wires.get? j.key = none → ¬ q j := by
  intro j hj hopen hqj
  refine List.find?_eq_none.1 h j (List.mem_filter.2 ⟨hj, ?_⟩) ((hq j).2 hqj)
  simp [Dict.contains, hopen]

end

theorem bound_withCarry (m : Node) (u : NodeType) (wires : Dict Term) (type : GlslType) (carry : Term) :
    Bound (m.inlets u) wires type carry (withCarry m u wires type carry) := by
  have hq : ∀ j : Inlet, (j.type == type) = true ↔ j.type = type := by simp
  unfold withCarry carryInput?
  dsimp only
  cases hsame : ((m.inlets u).filter fun j ↦ !wires.contains j.key).find? fun j ↦ j.type == type with
  | some i => exact .same (isFirst_of_find? hq hsame)
  | none =>
    have hnone := not_of_find? hq hsame
    cases hnear : ((m.inlets u).filter fun j ↦ !wires.contains j.key).find? fun j ↦ type.feeds j.type with
    | some i => exact .near hnone (isFirst_of_find? (fun _ ↦ .rfl) hnear)
    | none => exact .nowhere (not_of_find? (fun _ ↦ .rfl) hnear)

theorem Bound.accepts {wires' : Dict Term} (h : Bound (m.inlets u) wires type carry wires')
    (hw : m.Accepts u wires) (hc : carry.type = type) : m.Accepts u wires' := by
  cases h with
  | same hi => exact hw.insert hi.mem (by rw [hc, hi.of.2, GlslType.feeds_self])
  | near _ hi => exact hw.insert hi.mem (hc ▸ hi.of.2)
  | nowhere => exact hw

theorem reading_carry (hkeys : (n.inputs.map (·.key)).Nodup) (h : n.Accepts Catalogue.loop wires)
    (stem : String) : Reading (n.site Catalogue.loop stem wires) carryKey n.carryType
      ((n.site Catalogue.loop stem wires).read carryKey n.carryType) :=
  Site.reading fun _ ↦ h.type_carry hkeys

theorem filterMap_plan (iterations : Nat) (steps : List String) :
    (plan iterations steps).filterMap (b.found? ·.2) =
      (List.replicate iterations (steps.filterMap b.found?)).flatten := by
  rw [plan, List.filterMap_flatMap]
  simp [List.filterMap_map, List.flatMap_def]

structure Underway (b : Bench) (type : GlslType) (start : Term) (done : List (Nat × String))
    (turn : Turn) (runs : List Instance) : Prop where
  nodes : runs.map (fun i ↦ (i.node, i.type)) = done.filterMap (b.found? ·.2)
  passes : b.Passes type start runs
  steps : ∀ i ∈ runs, b.Threads i
  carry : turn.carry = carryAfter type start runs
  statements : turn.emission.statements = runs.flatMap (·.emission.statements)
  outputs : turn.emission.outputs = []

theorem inherits_threads
    (hloops : ∀ name t, b.library.find? name = some t → t.role = .loop → t = Catalogue.loop)
    (hkeys : ∀ n ∈ b.graph.nodes, (n.inputs.map (·.key)).Nodup) : b.Inherits
    (fun _ n t stem wires _ e _ ↦ n.Accepts t wires → b.Threads ⟨n, t, stem, wires, e⟩)
    fun _ n _ _ start done turn ↦ start.type = n.carryType →
      ∃ runs, b.Underway n.carryType start done turn runs where
  plain _ _ _ _ hn ht _ := .plain hn ht _
  gap _ _ _ _ hn ht hm _ := .gap hn ht hm rfl rfl
  idle {n t} _ stem wires _ hn ht hm hs haccepts := by
    obtain rfl := hloops _ t hn.type ht
    have hread := reading_carry (hkeys n (List.mem_of_find?_eq_some hn.node)) haccepts stem
    have hruns : ([] : List Instance).map (fun i ↦ (i.node, i.type)) =
        (List.replicate (b.turns n) (n.steps.filterMap b.found?)).flatten := by
      rcases hs with hs | hs <;> simp [hs]
    exact .loop hn ht hm hread hruns (.nil hread.type_eq) (by simp) rfl rfl
  run {n t room stem wires scope turn} hn ht hm _ hrun haccepts := by
    obtain rfl := hloops _ t hn.type ht
    have hread := reading_carry (hkeys n (List.mem_of_find?_eq_some hn.node)) haccepts stem
    obtain ⟨runs, h⟩ := hrun hread.type_eq
    refine .loop hn ht hm hread (h.nodes.trans (filterMap_plan _ _)) h.passes h.steps ?_ ?_
    · rw [← h.carry, ← h.statements]
      rfl
    · simp only [Emission.declare, h.outputs]
      rfl
  start _ _ _ _ _ hstart := ⟨[], rfl, .nil hstart, by simp, rfl, rfl, rfl⟩
  skip k hc hm hturn hstart := by
    obtain ⟨runs, h⟩ := hturn hstart
    have hunknown := found?_of_unknown (not_known_of_find? hc hm)
    refine ⟨runs, ?_, h.passes, h.steps, h.carry, h.statements, h.outputs⟩
    simp [h.nodes, List.filterMap_append, hunknown]
  step {room n stem scope start done turn c m u wires stepStem stepScope e scope'} k hm hw _ hturn he
      hstart := by
    obtain ⟨runs, h⟩ := hturn hstart
    have hbound := bound_withCarry m u wires n.carryType turn.carry
    have hcarry : turn.carry.type = n.carryType := by
      rw [h.carry]
      exact h.passes.type_carryAfter
    -- What is carried keeps the type of the loop, so the wires of the step fit its inputs again.
    let i : Instance := ⟨m, u, stepStem, withCarry m u wires n.carryType turn.carry, e⟩
    have hstep : b.Threads i := he (hbound.accepts (.of_resolve hw) hcarry)
    have hi : Bound (i.node.inlets i.type) wires n.carryType (carryAfter n.carryType start runs) i.wires := by
      rw [← h.carry]
      exact hbound
    refine ⟨runs ++ [i], ?_, h.passes.snoc hw hi, ?_, ?_, ?_, h.outputs⟩
    · rw [List.map_append, List.filterMap_append, h.nodes]
      simp [i, found?_of_present hm]
    · intro j hj
      rcases List.mem_append.1 hj with hj | hj
      · exact h.steps j hj
      · exact List.mem_singleton.1 hj ▸ hstep
    · rw [carryAfter_snoc, ← h.carry]
      rfl
    · rw [List.flatMap_append, List.flatMap_singleton, ← h.statements]
      rfl

/-- All instances come about so if they are emitted with wires that fit. -/
theorem threads_of_emit {room : Nat} {stem : String} {scope scope' : Scope} {e : Emission}
    (hloops : ∀ name t, b.library.find? name = some t → t.role = .loop → t = Catalogue.loop)
    (hkeys : ∀ n ∈ b.graph.nodes, (n.inputs.map (·.key)).Nodup)
    (hn : Present b.graph b.library n.id n t) (hw : b.resolve n t = .ok wires)
    (he : b.emit room n t stem wires scope = .ok (e, scope')) : b.Threads ⟨n, t, stem, wires, e⟩ :=
  (inherits_threads hloops hkeys).emit hn he (.of_resolve hw)

end Bench

theorem Library.builtin_loops {name : String} {t : NodeType} (h : Library.builtin.find? name = some t)
    (ht : t.role = .loop) : t = Catalogue.loop :=
  Catalogue.eq_loop_of_mem (mem_of_find?_ofList h) ht

namespace Draft

variable {g : Graph} {settings : Settings} {order : List String} {d : Draft}

/-- The blocks of a draft, whatever the order, are those of instances that come about step by step: the
known nodes of the order, with the wires that are resolved when they are emitted. -/
theorem ofOrder_threads (hkeys : ∀ n ∈ g.nodes, (n.inputs.map (·.key)).Nodup)
    (h : ofOrder g .builtin settings order = .ok d) :
    List.Forall₂ (fun c block ↦ ∃ done before i, done ++ [c] <+: order ∧
        ofOrder g .builtin settings done = .ok before ∧ Present g .builtin c i.node i.type ∧
        (bench g .builtin settings before).resolve i.node i.type = .ok i.wires ∧
        (bench g .builtin settings before).Threads i ∧ block = i.emission.statements)
      (order.filter (Known g .builtin)) d.blocks := by
  have hwrites := writes_of_ofOrder (fun _ _ ↦ Library.builtin_declared) h
  refine hwrites.imp ?_
  rintro c block ⟨done, before, n, t, wires, stem, scope, e, scope', hdone, hbefore, hn, hw, -, he, hblock⟩
  have hthreads := Bench.threads_of_emit (b := bench g .builtin settings before)
    (fun _ _ ↦ Library.builtin_loops) hkeys hn.self hw he
  exact ⟨done, before, ⟨n, t, stem, wires, e⟩, hdone, hbefore, hn, hw, hthreads, hblock⟩

def Sample.carried : Graph where
  nodes := [{ id := "f", typeName := "Float" },
    { id := "outer", typeName := "Loop",
      inputs := [{ key := "carry", type := .vec3, wire := some ⟨"f", "value"⟩ }],
      params := .ofList [("iterations", .int 1), ("steps", .array [.string "inv", .string "gone",
        .string "inner", .string "inv"])] },
    { id := "inv", typeName := "Invert" }, { id := "gone", typeName := "Gone" },
    { id := "inner", typeName := "Loop",
      params := .ofList [("carry", .int 2), ("iterations", .int 1), ("steps", .array [.string "gray"])] },
    { id := "gray", typeName := "Grayscale" }]

def Sample.carriedTexts : List String :=
  ["float f_value = 0.0;",
    "\n".intercalate ["vec3 outer_i0_inv_color = vec3(1.0) - vec3(f_value);",
      "float outer_i0_inner_i0_gray_value = dot(vec3(2.0), vec3(0.2126, 0.7152, 0.0722));",
      "float outer_i0_inner_result = outer_i0_inner_i0_gray_value;",
      "vec3 outer_i0_inv_1_color = vec3(1.0) - outer_i0_inv_color;",
      "vec3 outer_result = outer_i0_inv_1_color;"]]

theorem ofOrder_threads_carried :
    ∃ d, ofOrder Sample.carried .builtin {} ["f", "outer"] = .ok d ∧
      d.blocks.map blockText = Sample.carriedTexts ∧
      List.Forall₂ (fun c block ↦ ∃ done before i, done ++ [c] <+: ["f", "outer"] ∧
          ofOrder Sample.carried .builtin {} done = .ok before ∧
          Present Sample.carried .builtin c i.node i.type ∧
          (bench Sample.carried .builtin {} before).resolve i.node i.type = .ok i.wires ∧
          (bench Sample.carried .builtin {} before).Threads i ∧ block = i.emission.statements)
        ["f", "outer"] d.blocks := by
  have hrun : (ofOrder Sample.carried .builtin {} ["f", "outer"]).map
        (·.blocks.map blockText) = .ok Sample.carriedTexts ∧
      ["f", "outer"].filter (Known Sample.carried .builtin) = ["f", "outer"] := by decide +kernel
  obtain ⟨htexts, hknown⟩ := hrun
  obtain ⟨d, hd, hblocks⟩ := exists_of_map_eq_ok htexts
  have hthreads := ofOrder_threads (by decide) hd
  rw [hknown] at hthreads
  exact ⟨d, hd, hblocks, hthreads⟩

end Draft

end NodeShader

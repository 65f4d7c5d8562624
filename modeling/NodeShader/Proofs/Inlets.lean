import NodeShader.Proofs.Expansion

namespace NodeShader

def Json.components? (v : Json) (type : GlslType) : Option (List Binary32) :=
  match type with
  | .float => v.single?.map fun x ↦ [x]
  | _ => v.vector? type.components

def Glsl.literal : List Binary32 → String
  | [x] => floatLiteral x
  | xs => vectorLiteral xs

theorem Glsl.literal_of_length {xs : List Binary32} (h : xs.length ≠ 1) :
    literal xs = vectorLiteral xs := by
  unfold literal
  split
  · exact absurd rfl h
  · rfl

theorem Json.length_vector? {v : Json} {n : Nat} {xs : List Binary32} (hn : n ≤ 4)
    (h : v.vector? n = some xs) : xs.length = n := by
  cases v with
  | array items =>
    cases h
    simp only [List.length_append, List.length_map, List.length_take, List.length_replicate]
    omega
  | object fields =>
    cases h
    simp only [List.length_map, List.length_take, componentNames, List.length_cons, List.length_nil]
    omega
  | number n => cases h; simp
  | bool b => cases h; simp
  | null => cases h
  | string s => cases h

theorem Json.length_components? {v : Json} {type : GlslType} {xs : List Binary32}
    (h : v.components? type = some xs) : xs.length = type.components := by
  cases type with
  | float =>
    obtain ⟨x, -, rfl⟩ := Option.map_eq_some_iff.1 h
    rfl
  | vec2 => exact length_vector? (by decide) h
  | vec3 => exact length_vector? (by decide) h
  | vec4 => exact length_vector? (by decide) h

/-- What an input reads at a type: its wire, which is spread if it is a number, or else the numbers of
its parameter, or else zero. -/
inductive Reading (s : Site) (key : String) (type : GlslType) : Term → Prop
  | wire {x : Term} (hw : s.wires.get? key = some x) (hx : x.type = type) : Reading s key type x
  | spread {x : Term} (hw : s.wires.get? key = some x) (hx : x.type = .float) (ht : type ≠ .float) :
      Reading s key type (x.spread type)
  | literal {v : Json} {xs : List Binary32} (hw : s.wires.get? key = none) (hv : s.param? key = some v)
      (hxs : v.components? type = some xs) (hlength : xs.length = type.components) :
      Reading s key type ⟨type, Glsl.literal xs⟩
  | zero (hw : s.wires.get? key = none)
      (hnone : ∀ v, s.param? key = some v → v.components? type = none) :
      Reading s key type (.zero type)

theorem Reading.type_eq {s : Site} {key : String} {type : GlslType} {x : Term}
    (h : Reading s key type x) : x.type = type := by
  cases h with
  | wire _ hx => exact hx
  | spread _ hx _ => cases type <;> first | exact hx | rfl
  | literal => rfl
  | zero => rfl

theorem GlslType.feeds_cases {s t : GlslType} (h : s.feeds t) : s = t ∨ s = .float := by
  simp only [feeds, Bool.or_eq_true, Bool.and_eq_true, beq_iff_eq] at h
  exact h.imp_right And.left

namespace Site

variable {s : Site} {key : String} {type : GlslType}

theorem literal?_eq (s : Site) (key : String) (type : GlslType) :
    s.literal? key type = ((s.param? key).bind (·.components? type)).map Glsl.literal := by
  have hvector : ∀ {v : Json} {n : Nat}, 1 < n → n ≤ 4 →
      (v.vector? n).map Glsl.vectorLiteral = (v.vector? n).map Glsl.literal := by
    intro v n hn hle
    refine Option.map_congr fun xs hxs ↦ (Glsl.literal_of_length ?_).symm
    have hlength := Json.length_vector? hle hxs
    omega
  cases hv : s.param? key with
  | none => simp [literal?, hv]
  | some v =>
    simp only [literal?, hv, Option.bind_some, Json.components?]
    cases type with
    | float => simp [Option.map_map, Function.comp_def, Glsl.literal]
    | vec2 => exact hvector (by decide) (by decide)
    | vec3 => exact hvector (by decide) (by decide)
    | vec4 => exact hvector (by decide) (by decide)

theorem reading (h : ∀ x, s.wires.get? key = some x → x.type = type ∨ x.type = .float) :
    Reading s key type (s.read key type) := by
  unfold read
  split
  · rename_i x hx
    unfold Term.coerce
    split
    · rename_i htype
      exact .wire hx htype
    · rename_i hne
      have hfloat := (h x hx).resolve_left hne
      rw [if_pos hfloat]
      exact .spread hx hfloat fun ht ↦ hne (hfloat.trans ht.symm)
  · rename_i hx
    rw [literal?_eq]
    cases hxs : (s.param? key).bind (·.components? type) with
    | none =>
      refine .zero hx fun v hv ↦ ?_
      simpa [hv] using hxs
    | some xs =>
      obtain ⟨v, hv, hxs⟩ := Option.bind_eq_some_iff.1 hxs
      exact .literal hx hv hxs (Json.length_components? hxs)

end Site

/-- Among pins with different keys each is found by its own. -/
theorem find?_of_mem_pins {pins : List Pin} {p : Pin} (hkeys : (pins.map (·.key)).Nodup) (hp : p ∈ pins) :
    pins.find? (·.key == p.key) = some p := by
  cases hfind : pins.find? (·.key == p.key) with
  | none => exact absurd (beq_self_eq_true p.key) (List.find?_eq_none.1 hfind p hp)
  | some q =>
    have hkey : q.key = p.key := by simpa using List.find?_some hfind
    rw [List.inj_on_of_nodup_map hkeys (List.mem_of_find?_eq_some hfind) hp hkey]

def Node.Accepts (n : Node) (t : NodeType) (wires : Dict Term) : Prop :=
  ∀ key x, wires.get? key = some x → ∃ i ∈ n.inlets t, i.key = key ∧ x.type.feeds i.type

namespace Node.Accepts

variable {n : Node} {t : NodeType} {wires : Dict Term} {i : Inlet} {x : Term}

theorem insert (h : n.Accepts t wires) (hi : i ∈ n.inlets t) (hx : x.type.feeds i.type) :
    n.Accepts t (wires.insert i.key x) := by
  intro key y hy
  rw [Dict.get?_insert] at hy
  split at hy
  · rename_i hkey
    cases hy
    exact ⟨i, hi, hkey.symm, hx⟩
  · exact h key y hy

theorem of_resolve {b : Bench} (h : b.resolve n t = .ok wires) : n.Accepts t wires := by
  refine foldlM_eq_ok_induction (fun wires ↦ n.Accepts t wires) h nofun ?_
  intro wires wires' i hi hconnect hwires
  unfold Bench.connect at hconnect
  split at hconnect
  · cases hconnect
    exact hwires
  · split at hconnect
    · cases hconnect
      exact hwires
    · split at hconnect
      · rename_i x _ hfeeds
        cases hconnect
        exact hwires.insert hi hfeeds
      · cases hconnect

end Node.Accepts

namespace Node

variable {n : Node} {wires : Dict Term} {i : Inlet}

theorem type_carry_inlet (hkeys : (n.inputs.map (·.key)).Nodup)
    (hi : i ∈ n.inlets Catalogue.loop) (hkey : i.key = carryKey) :
    i.type = n.carryType ∨ i.type = .float := by
  unfold Node.inlets at hi
  split at hi
  · obtain rfl := List.mem_singleton.1 hi
    exact .inr rfl
  · obtain ⟨s, hs, rfl⟩ := List.mem_map.1 hi
    have hpin : s.toPin ∈ n.inputs.map (·.toPin) := List.mem_map_of_mem hs
    have hpins : ((n.inputs.map (·.toPin)).map (·.key)).Nodup := by simpa [Function.comp_def] using hkeys
    have hfind := find?_of_mem_pins hpins hpin
    have hkey : s.key = carryKey := hkey
    rw [hkey] at hfind
    simp [Node.carryType, carryTypeOf, hfind]

/-- What is wired to a loop can be carried. -/
theorem Accepts.type_carry (h : n.Accepts Catalogue.loop wires) (hkeys : (n.inputs.map (·.key)).Nodup)
    {x : Term} (hx : wires.get? carryKey = some x) : x.type = n.carryType ∨ x.type = .float := by
  obtain ⟨i, hi, hkey, hfeeds⟩ := h carryKey x hx
  rcases GlslType.feeds_cases hfeeds with htype | hfloat
  · rw [htype]
    exact type_carry_inlet hkeys hi hkey
  · exact .inr hfloat

end Node

end NodeShader

import NodeShader.Proofs.Expansion
import NodeShader.Shader

namespace NodeShader

def pinsOf (outputs : Exports) : List Pin := outputs.map fun o ↦ ⟨o.1, o.2.type⟩

/-- What an instance of the node exports, whatever its names and wires are. -/
def Node.exports (n : Node) (t : NodeType) : List Pin :=
  pinsOf (t.emit (n.site t n.id .empty)).outputs

def exports? (g : Graph) (lib : Library) (id : String) : Option (List Pin) :=
  (g.find? id).bind fun n ↦ (lib.find? n.typeName).map n.exports

def pinType? (pins : List Pin) (key : String) : Option GlslType :=
  (pins.find? (·.key == key)).map (·.type)

def wireType? (g : Graph) (lib : Library) (w : Wire) : Option GlslType :=
  (exports? g lib w.node).bind (pinType? · w.output)

theorem pinType?_pinsOf (outputs : Exports) (key : String) :
    pinType? (pinsOf outputs) key = (lookup key outputs).map (·.type) := by
  induction outputs with
  | nil => rfl
  | cons o outputs ih =>
    by_cases h : o.1 = key
    · simp [pinType?, pinsOf, lookup, h]
    · simpa [pinType?, pinsOf, lookup, h] using ih

def Role.shows : Role → List Pin → Bool
  | .output _, pins => pins.any (·.key == "color")
  | .plain, pins | .loop, pins => !pins.isEmpty

theorem lookup_isSome {α : Type} (key : String) (es : List (String × α)) :
    (lookup key es).isSome = es.any (·.1 == key) := by
  induction es with
  | nil => rfl
  | cons e es ih => by_cases h : e.1 = key <;> simp [lookup, h, ih]

theorem terminalWrite_isSome (role : Role) (outputs : Exports) (colour : String) :
    (terminalWrite role outputs colour).isSome = role.shows (pinsOf outputs) := by
  cases role with
  | output alpha => simp [terminalWrite, Role.shows, pinsOf, lookup_isSome, Function.comp_def]
  | plain | loop => cases outputs <;> rfl

def Recipe.pins (r : Recipe) : List Pin := (r.filter (·.exported)).map fun l ↦ ⟨l.key, l.type⟩

theorem Emission.Follows.pinsOf_outputs {e : Emission} {site : Site} {r : Recipe}
    (h : e.Follows site r) : pinsOf e.outputs = r.pins := by
  rw [h.outputs]
  simp [pinsOf, Recipe.pins]

theorem pinsOf_declare {e : Emission} (he : e.outputs = []) (site : Site) (key : String)
    (type : GlslType) (value : String) :
    pinsOf (e.declare site key type value).outputs = [⟨key, type⟩] := by
  simp [pinsOf, Emission.declare, he]

namespace Catalogue

structure Steady (t : NodeType) : Prop where
  pins : ∀ site stem symbol wires,
    pinsOf (t.emit { site with stem := stem, symbol := symbol, wires := wires }).outputs =
      pinsOf (t.emit site).outputs
  shown : ∀ site, t.role.shows (pinsOf (t.emit site).outputs) = true
  result : t.role = .loop → ∀ site, pinsOf (t.emit site).outputs =
    [⟨resultKey, carryTypeOf site.ownInputs site.params⟩]

theorem steady_of_emit {t : NodeType} {r : Site → Recipe} (pins : List Pin)
    (h : ∀ site, t.emit site = (r site).emit site) (hr : ∀ site, (r site).pins = pins)
    (hshown : t.role.shows pins = true) (hrole : t.role ≠ .loop) : Steady t := by
  have hpins : ∀ site, pinsOf (t.emit site).outputs = pins := by
    intro site
    rw [h, (Recipe.emit_follows (r site) site).pinsOf_outputs, hr]
  refine ⟨fun site stem symbol wires ↦ ?_, fun site ↦ ?_, fun hl ↦ absurd hl hrole⟩
  · rw [hpins, hpins]
  · rw [hpins, hshown]

theorem steady_wave (name f : String) : Steady (wave name f) :=
  steady_of_emit [⟨"out", .float⟩] (fun _ ↦ rfl) (fun _ ↦ rfl) rfl nofun

theorem steady_fbm : Steady fbm :=
  steady_of_emit [⟨"value", .float⟩] (fun _ ↦ rfl) (fun _ ↦ rfl) rfl nofun

theorem steady_customFunction : Steady customFunction := by
  have hpins : ∀ site, pinsOf (customFunction.emit site).outputs = [⟨"out", returnType site⟩] :=
    fun site ↦ pinsOf_declare rfl ..
  refine ⟨fun site stem symbol wires ↦ ?_, fun site ↦ ?_, nofun⟩
  · rw [hpins, hpins]
    rfl
  · rw [hpins]
    rfl

theorem pinsOf_formulaEmission (site : Site) :
    pinsOf (formulaEmission site).outputs = [⟨"out", (site.outputType? "out").getD .float⟩] := by
  unfold formulaEmission
  dsimp only
  split
  · exact pinsOf_declare rfl ..
  · split <;> exact pinsOf_declare rfl ..

theorem steady_formula : Steady formula where
  pins site stem symbol wires := by
    rw [emit_formula, pinsOf_formulaEmission, pinsOf_formulaEmission]
    rfl
  shown site := by
    rw [emit_formula, pinsOf_formulaEmission]
    rfl
  result := nofun

theorem steady_loop : Steady loop := by
  have hpins : ∀ site, pinsOf (loop.emit site).outputs =
      [⟨resultKey, carryTypeOf site.ownInputs site.params⟩] := fun site ↦ pinsOf_declare rfl ..
  refine ⟨fun site stem symbol wires ↦ ?_, fun site ↦ ?_, fun _ ↦ hpins⟩
  · rw [hpins, hpins]
    rfl
  · rw [hpins]
    rfl

theorem steady_of_mem : ∀ t ∈ all, Steady t := by
  have hshown : ∀ t ∈ all, ∀ r ∈ t.recipe?, t.role.shows r.pins = true ∧ t.role ≠ .loop := by
    decide +kernel
  refine forall_mem_all (fun t ht r hr ↦ ?_) (steady_wave ..) (steady_wave ..) steady_fbm
    steady_customFunction steady_formula steady_loop
  obtain ⟨hpins, hrole⟩ := hshown t ht r hr
  exact steady_of_emit r.pins (congrFun (emit_of_recipe? hr)) (fun _ ↦ rfl) hpins hrole

end Catalogue

theorem Library.builtin_steady {name : String} {t : NodeType}
    (h : Library.builtin.find? name = some t) : Catalogue.Steady t :=
  Catalogue.steady_of_mem t (mem_of_find?_ofList h)

namespace Bench

variable {b : Bench} {room : Nat} {n : Node} {t : NodeType} {stem : String} {wires : Dict Term}
  {scope scope' : Scope} {e : Emission}

/-- Every instance of a node exports the same, also a loop that is unrolled or cannot be. -/
theorem pinsOf_emit (ht : Catalogue.Steady t)
    (h : b.emit room n t stem wires scope = .ok (e, scope')) : pinsOf e.outputs = n.exports t := by
  by_cases hl : t.role = .loop
  · have hresult : n.exports t = [⟨resultKey, n.carryType⟩] := ht.result hl _
    rw [emit_of_loop hl] at h
    rcases unroll_eq_ok h with ⟨-, -, rfl⟩ | ⟨-, -, -, rfl⟩ | ⟨-, -, -, room', turn, -, hrun, -, rfl⟩
    · rw [hresult, pinsOf_declare rfl]
    · exact ht.pins (n.site t n.id .empty) stem _ wires
    · rw [hresult, pinsOf_declare (foldlM_takeStep_outputs hrun)]
  · rw [emit_of_not_loop hl] at h
    cases h
    exact ht.pins (n.site t n.id .empty) stem _ wires

end Bench

end NodeShader

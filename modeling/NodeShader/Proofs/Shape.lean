import NodeShader.Proofs.Catalogue
import NodeShader.Proofs.Expression
import NodeShader.Proofs.Formula.Balance

namespace NodeShader

open Text Glsl

structure Statement.WellFormed (s : Statement) : Prop where
  name : IsIdentifier s.name
  value : IsExpression s.value

structure Emission.WellFormed (e : Emission) : Prop where
  statements : ∀ s ∈ e.statements, s.WellFormed
  outputs : ∀ o ∈ e.outputs, IsExpression o.2.text

def Expressions (wires : Dict Term) : Prop := ∀ key x, wires.get? key = some x → IsExpression x.text

variable {site : Site} {e : Emission}

theorem Site.isExpression_literal? {key text : String} {type : GlslType}
    (h : site.literal? key type = some text) : IsExpression text := by
  obtain ⟨v, -, h⟩ := Option.bind_eq_some_iff.1 h
  cases type with
  | float =>
    obtain ⟨x, -, rfl⟩ := Option.map_eq_some_iff.1 h
    exact isExpression_floatLiteral x
  | vec2 | vec3 | vec4 =>
    obtain ⟨xs, -, rfl⟩ := Option.map_eq_some_iff.1 h
    exact isExpression_vectorLiteral xs

theorem Site.isExpression_read (h : Expressions site.wires) (key : String) (type : GlslType) :
    IsExpression (site.read key type).text := by
  unfold Site.read
  split
  · rename_i x hx
    exact Term.isExpression_coerce (h key x hx) type
  · split
    · rename_i text htext
      exact Site.isExpression_literal? htext
    · exact type.isExpression_zero

theorem Site.isExpression_variableName (key : String) : IsExpression (site.variableName key) :=
  (isIdentifier_variableName _ _).isExpression

namespace Emission

/-- What only reports something declares nothing. -/
theorem wellFormed_diagnostics (ds : List Diagnostic) : WellFormed { diagnostics := ds } := ⟨nofun, nofun⟩

theorem WellFormed.declare {key value : String} {type : GlslType} (h : e.WellFormed)
    (hvalue : IsExpression value) : (e.declare site key type value).WellFormed where
  statements s hs := by
    rcases List.mem_append.1 hs with hs | hs
    · exact h.statements s hs
    · obtain rfl := List.mem_singleton.1 hs
      exact ⟨isIdentifier_variableName _ _, hvalue⟩
  outputs o ho := by
    rcases List.mem_append.1 ho with ho | ho
    · exact h.outputs o ho
    · obtain rfl := List.mem_singleton.1 ho
      exact Site.isExpression_variableName key

theorem Follows.wellFormed {r : Recipe} (h : e.Follows site r)
    (hr : ∀ l ∈ r, IsExpression (l.fill site)) : e.WellFormed where
  statements s hs := by
    rw [h.statements] at hs
    obtain ⟨l, hl, rfl⟩ := List.mem_map.1 hs
    exact ⟨isIdentifier_variableName _ _, hr l hl⟩
  outputs o ho := by
    rw [h.outputs] at ho
    obtain ⟨l, -, rfl⟩ := List.mem_map.1 ho
    exact Site.isExpression_variableName l.key

end Emission

namespace Piece

def nesting (depth : Nat) : Piece → Option Nat
  | text s => Text.nesting depth s.toList
  | read .. | var _ => some depth

def isInert : Piece → Bool
  | text s => s.toList.all fun c ↦ !endsStatement c
  | read .. | var _ => true

variable {p : Piece}

theorem nesting_fill (h : Expressions site.wires) (depth : Nat) :
    Text.nesting depth (p.fill site).toList = p.nesting depth := by
  cases p with
  | text s => rfl
  | read key type => exact (Site.isExpression_read h key type).nesting_eq depth
  | var key => exact (Site.isExpression_variableName key).nesting_eq depth

theorem nesting_flatMap (h : Expressions site.wires) (ps : List Piece) (depth : Nat) :
    Text.nesting depth (ps.flatMap fun p ↦ (p.fill site).toList) = ps.foldlM nesting depth := by
  induction ps generalizing depth with
  | nil => rfl
  | cons p ps ih =>
    rw [List.flatMap_cons, nesting_append, nesting_fill h, List.foldlM_cons]
    exact congrArg (Option.bind _) (funext ih)

theorem inert_fill (h : Expressions site.wires) (hp : p.isInert) :
    ∀ c ∈ (p.fill site).toList, endsStatement c = false := by
  cases p with
  | text s => simpa [isInert, fill] using hp
  | read key type => exact (Site.isExpression_read h key type).inert
  | var key => exact (Site.isExpression_variableName key).inert

theorem fill_ne_empty (h : Expressions site.wires) (hp : p ≠ .text "") : p.fill site ≠ "" := by
  cases p with
  | text s => simpa [fill] using hp
  | read key type => exact (Site.isExpression_read h key type).nonempty
  | var key => exact (Site.isExpression_variableName key).nonempty

end Piece

def Line.IsSound (l : Line) : Prop :=
  (∀ p ∈ l.value, p.isInert) ∧ l.value.foldlM Piece.nesting 0 = some 0 ∧ ∃ p ∈ l.value, p ≠ .text ""

instance (l : Line) : Decidable l.IsSound := inferInstanceAs (Decidable (_ ∧ _))

theorem Line.IsSound.fill {l : Line} (h : l.IsSound) (hs : Expressions site.wires) :
    IsExpression (l.fill site) := by
  obtain ⟨hinert, hnesting, p, hp, hne⟩ := h
  have hchars : (l.fill site).toList = l.value.flatMap fun p ↦ (p.fill site).toList := by
    rw [Line.fill, String.toList_join, List.flatMap_map]
  refine ⟨⟨fun c hc ↦ ?_, ?_⟩, fun hempty ↦ ?_⟩
  · obtain ⟨p, hp, hc⟩ := List.mem_flatMap.1 (hchars ▸ hc)
    exact Piece.inert_fill hs (hinert p hp) c hc
  · rw [hchars, Piece.nesting_flatMap hs, hnesting]
  · rw [hempty] at hchars
    have hnil := List.flatMap_eq_nil_iff.1 hchars.symm p hp
    exact Piece.fill_ne_empty hs hne (String.toList_eq_nil_iff.1 hnil)

namespace Catalogue

/-- Wherever the inputs are expressions, so is all that the type writes. -/
def WritesExpressions (t : NodeType) : Prop :=
  ∀ site : Site, Expressions site.wires → (t.emit site).WellFormed

theorem WritesExpressions.emission {t : NodeType} (h : WritesExpressions t)
    (hs : Expressions site.wires) : (t.emission site).WellFormed := by
  obtain ⟨hstatements, houtputs⟩ := h site hs
  exact ⟨hstatements, houtputs⟩

theorem writesExpressions_of_emit {t : NodeType} {r : Site → Recipe}
    (h : ∀ site, t.emit site = Recipe.emit (r site) site) (hr : ∀ site, ∀ l ∈ r site, l.IsSound) :
    WritesExpressions t := by
  intro site hs
  rw [h site]
  exact (Recipe.emit_follows _ site).wellFormed fun l hl ↦ (hr site l hl).fill hs

theorem writesExpressions_wave (name : String) {f : String} (hf : f = "sin" ∨ f = "cos") :
    WritesExpressions (wave name f) := by
  refine writesExpressions_of_emit (fun _ ↦ rfl) fun site l hl ↦ ?_
  obtain rfl := List.mem_singleton.1 hl
  rcases hf with rfl | rfl <;> cases hasPhase site <;> decide

theorem writesExpressions_fbm : WritesExpressions fbm := by
  refine writesExpressions_of_emit (fun _ ↦ rfl) fun site l hl ↦ ?_
  obtain rfl := List.mem_singleton.1 hl
  have hcount := balanced_toString (octaves site)
  generalize toString (octaves site) = count at hcount ⊢
  have hinert : (Piece.text count).isInert := by simpa [Piece.isInert] using hcount.inert
  refine ⟨?_, ?_, ?_⟩
  · simp only [List.forall_mem_cons, hinert]
    decide
  · simp only [List.foldlM_cons, Piece.nesting, hcount.nesting_eq]
    rfl
  · exact ⟨_, List.mem_cons_self, by decide⟩

theorem writesExpressions_customFunction : WritesExpressions customFunction := by
  intro site hs
  have hargs : Balanced (", ".intercalate (arguments site)) := by
    refine .intercalate (by decide) fun t ht ↦ ?_
    obtain ⟨p, -, rfl⟩ := List.mem_map.1 ht
    exact (Site.isExpression_read hs p.key p.type).toBalanced
  have hname := (isIdentifier_identifier ("cf_" ++ site.symbol)).isExpression
  exact Emission.WellFormed.declare ⟨nofun, nofun⟩ (.call hname.toBalanced hargs)

theorem writesExpressions_loop : WritesExpressions loop := fun _ hs ↦
  Emission.WellFormed.declare ⟨nofun, nofun⟩ (Site.isExpression_read hs _ _)

theorem writesExpressions_formula : WritesExpressions formula := by
  intro site hs
  rw [emit_formula, formulaEmission]
  split
  · exact Emission.WellFormed.declare (Emission.wellFormed_diagnostics _) (GlslType.isExpression_zero _)
  · split
    · rename_i text htext
      have hbound : ∀ x text, binding site x = some text → IsExpression text := by
        intro x text hx
        obtain ⟨p, -, rfl⟩ := Option.map_eq_some_iff.1 hx
        exact Site.isExpression_read hs p.key p.type
      exact Emission.WellFormed.declare (Emission.wellFormed_diagnostics _) (Formula.isExpression_toGlsl hbound htext)
    · exact Emission.WellFormed.declare (Emission.wellFormed_diagnostics _) (GlslType.isExpression_zero _)

theorem writesExpressions_of_mem : ∀ t ∈ all, WritesExpressions t := by
  have hsound : ∀ t ∈ all, ∀ r ∈ t.recipe?, ∀ l ∈ r, l.IsSound := by decide +kernel
  refine forall_mem_all (fun t ht r hr ↦ ?_) (writesExpressions_wave _ (.inl rfl))
    (writesExpressions_wave _ (.inr rfl)) writesExpressions_fbm writesExpressions_customFunction
    writesExpressions_formula writesExpressions_loop
  exact writesExpressions_of_emit (congrFun (emit_of_recipe? hr)) fun _ ↦ hsound t ht r hr

end Catalogue

end NodeShader

import NodeShader.Catalogue
import Mathlib.Data.List.Nodup

namespace NodeShader

def Declares (block : List Statement) (x : Term) : Prop :=
  ∃ s ∈ block, s.type = x.type ∧ s.name = x.text

namespace Emission

/-- The emission of the declarations of a recipe, with whatever helpers and diagnostics. -/
structure Follows (e : Emission) (site : Site) (r : Recipe) : Prop where
  statements : e.statements = r.map fun l ↦ ⟨l.type, site.variableName l.key, l.fill site⟩
  outputs : e.outputs =
    (r.filter (·.exported)).map fun l ↦ (l.key, ⟨l.type, site.variableName l.key⟩)

structure Declared (e : Emission) : Prop where
  nonempty : e.statements ≠ []
  outputs : ∀ o ∈ e.outputs, Declares e.statements o.2

variable {e : Emission} {site : Site} {r : Recipe}

theorem Follows.addLine (h : e.Follows site r) (l : Line) :
    (Recipe.addLine site e l).Follows site (r ++ [l]) := by
  cases hl : l.exported <;> constructor <;>
    simp [Recipe.addLine, hl, declare, bind, h.statements, h.outputs]

theorem Follows.declared (h : e.Follows site r) (hr : r ≠ []) : e.Declared where
  nonempty := by
    rw [h.statements]
    simpa using hr
  outputs o ho := by
    rw [h.outputs] at ho
    obtain ⟨l, hl, rfl⟩ := List.mem_map.1 ho
    rw [h.statements]
    exact ⟨_, List.mem_map.2 ⟨l, (List.mem_filter.1 hl).1, rfl⟩, rfl, rfl⟩

theorem declare_follows (he : e.statements = []) (ho : e.outputs = []) (site : Site) (key : String)
    (type : GlslType) (value : String) :
    (e.declare site key type value).Follows site [⟨key, type, [.text value], true⟩] := by
  constructor <;> simp [declare, bind, he, ho, Line.fill, Piece.fill, String.join]

theorem declare_declared (ho : e.outputs = []) (site : Site) (key : String) (type : GlslType)
    (value : String) : (e.declare site key type value).Declared := by
  constructor <;> simp [declare, bind, ho, Declares]

end Emission

theorem Recipe.emit_follows (r : Recipe) (site : Site) : (r.emit site).Follows site r := by
  have hfold : ∀ e done, e.Follows site done → (r.foldl (addLine site) e).Follows site (done ++ r) := by
    induction r with
    | nil => simp
    | cons l r ih =>
      intro e done h
      simpa using ih _ _ (h.addLine l)
  exact hfold {} [] ⟨rfl, rfl⟩

/-- A recipe has no functions, and nothing to report. -/
theorem Recipe.emit_plain (r : Recipe) (site : Site) :
    (r.emit site).helpers = [] ∧ (r.emit site).diagnostics = [] := by
  have hfold : ∀ e : Emission, (r.foldl (addLine site) e).helpers = e.helpers ∧
      (r.foldl (addLine site) e).diagnostics = e.diagnostics := by
    induction r with
    | nil => exact fun _ ↦ ⟨rfl, rfl⟩
    | cons l r ih =>
      intro e
      have hline : (addLine site e l).helpers = e.helpers ∧
          (addLine site e l).diagnostics = e.diagnostics := by
        unfold addLine
        split
        · exact ⟨rfl, rfl⟩
        · exact ⟨rfl, rfl⟩
      obtain ⟨hhelpers, hdiagnostics⟩ := ih (addLine site e l)
      exact ⟨hhelpers.trans hline.1, hdiagnostics.trans hline.2⟩
  exact hfold {}

def Line.reads (l : Line) : List Pin :=
  l.value.flatMap fun
    | .read key type => [⟨key, type⟩]
    | .text _ | .var _ => []

theorem Line.mem_reads {l : Line} {key : String} {type : GlslType} (h : .read key type ∈ l.value) :
    ⟨key, type⟩ ∈ l.reads :=
  List.mem_flatMap.2 ⟨_, h, List.mem_singleton_self _⟩

/-- A line that reads the same at two sites with one stem is the same there. -/
theorem Line.fill_congr {l : Line} {site site' : Site} (hstem : site'.stem = site.stem)
    (h : ∀ p ∈ l.reads, site'.read p.key p.type = site.read p.key p.type) :
    l.fill site' = l.fill site := by
  unfold Line.fill
  congr 1
  refine List.map_congr_left fun p hp ↦ ?_
  cases p with
  | text s => rfl
  | read key type => exact congrArg Term.text (h _ (mem_reads hp))
  | var key => simp [Piece.fill, Site.variableName, hstem]

theorem Recipe.emit_congr {r : Recipe} {site site' : Site} (hstem : site'.stem = site.stem)
    (h : ∀ l ∈ r, ∀ p ∈ l.reads, site'.read p.key p.type = site.read p.key p.type) :
    r.emit site' = r.emit site := by
  refine List.foldl_ext _ _ _ fun e l hl ↦ ?_
  have hfill := Line.fill_congr hstem (h l hl)
  simp only [addLine, Emission.declare, Emission.bind, Site.variableName, hfill, hstem]

/-- Where no two types have one name, each is found under its own. -/
theorem Library.find?_ofList_of_mem {ts : List NodeType} {t : NodeType}
    (hnames : (ts.map (·.name)).Nodup) (ht : t ∈ ts) : (ofList ts).find? t.name = some t := by
  have hsome : ∀ (us : List NodeType) (l : Library), (l.find? t.name).isSome ∨ t ∈ us →
      ((us.foldl register l).find? t.name).isSome := by
    intro us
    induction us with
    | nil => simp
    | cons u us ih =>
      intro l h
      apply ih (l.register u)
      rw [find?_register]
      split
      · simp
      · rename_i hne
        refine h.imp_right fun hmem ↦ (List.mem_cons.1 hmem).resolve_left ?_
        rintro rfl
        exact hne rfl
  obtain ⟨u, hu⟩ := Option.isSome_iff_exists.1 (hsome ts empty (.inr ht))
  obtain ⟨hmem, hname⟩ := find?_ofList_eq_some hu
  obtain rfl := List.inj_on_of_nodup_map hnames hmem ht hname
  exact hu

namespace Catalogue

theorem nodup_names : (all.map (·.name)).Nodup := by decide +kernel

theorem customFunction_mem : customFunction ∈ all :=
  List.mem_append_left _ (List.mem_append_left _ (List.mem_append_right _ (.head _)))

theorem formula_mem : formula ∈ all :=
  List.mem_append_left _ (List.mem_append_left _ (List.mem_append_right _ (.tail _ (.head _))))

theorem loop_mem : loop ∈ all := List.mem_append_right _ (.head _)

theorem eq_of_name {t u : NodeType} (ht : t ∈ all) (hu : u ∈ all) (h : t.name = u.name) : t = u :=
  List.inj_on_of_nodup_map nodup_names ht hu h

theorem eq_loop_of_mem {t : NodeType} (ht : t ∈ all) (hrole : t.role = .loop) : t = loop := by
  have hnames : ∀ u ∈ all, u.role = .loop → u.name = loop.name := by decide +kernel
  exact eq_of_name ht loop_mem (hnames t ht hrole)

theorem emit_customFunction (site : Site) : customFunction.emit site =
    Emission.declare { helpers := [functionText site] } site "out" (returnType site)
      (functionName site.symbol ++ "(" ++ ", ".intercalate (arguments site) ++ ")") := rfl

theorem emit_formula : formula.emit = formulaEmission := rfl

theorem emit_loop (site : Site) : loop.emit site =
    Emission.declare {} site resultKey (carryTypeOf site.ownInputs site.params)
      (site.read carryKey (carryTypeOf site.ownInputs site.params)).text := rfl

theorem find?_builtin {t : NodeType} (ht : t ∈ all) : Library.builtin.find? t.name = some t :=
  Library.find?_ofList_of_mem nodup_names ht

theorem emit_of_recipe? {t : NodeType} {r : Recipe} (h : r ∈ t.recipe?) : t.emit = r.emit := by
  unfold NodeType.recipe? at h
  unfold NodeType.emit
  split at h
  · rw [Option.some.inj h]
  · cases h

theorem filter_code : all.filter (·.recipe?.isNone) = [sin, cos, fbm, customFunction, formula, loop] :=
  rfl

/-- What holds of every type with a recipe and of each of the others holds of all. -/
theorem forall_mem_all {P : NodeType → Prop} (hrecipe : ∀ t ∈ all, ∀ r ∈ t.recipe?, P t) (hsin : P sin)
    (hcos : P cos) (hfbm : P fbm) (hcustom : P customFunction) (hformula : P formula) (hloop : P loop) :
    ∀ t ∈ all, P t := by
  intro t ht
  cases hr : t.recipe? with
  | some r => exact hrecipe t ht r hr
  | none =>
    have hmem : t ∈ all.filter (·.recipe?.isNone) := List.mem_filter.2 ⟨ht, by rw [hr]; rfl⟩
    rw [filter_code] at hmem
    simp only [List.mem_cons, List.not_mem_nil, or_false] at hmem
    rcases hmem with rfl | rfl | rfl | rfl | rfl | rfl
    exacts [hsin, hcos, hfbm, hcustom, hformula, hloop]

theorem filter_helpers : all.filter (!·.helpers.isEmpty) =
    [noise, fbm, voronoi, sdBox, smoothMin, smoothMax, palette, hsvToRgb] := rfl

theorem forall_helpers {P : List String → Prop} (hnone : P [])
    (h : ∀ t ∈ [noise, fbm, voronoi, sdBox, smoothMin, smoothMax, palette, hsvToRgb], P t.helpers) :
    ∀ t ∈ all, P t.helpers := by
  intro t ht
  cases hhelpers : t.helpers with
  | nil => exact hnone
  | cons text texts =>
    rw [← hhelpers]
    apply h t
    rw [← filter_helpers]
    exact List.mem_filter.2 ⟨ht, by rw [hhelpers]; rfl⟩

/-- All but three types emit by a recipe. -/
theorem recipe_or_of_mem : ∀ t ∈ all, (∃ r : Site → Recipe, ∀ site, t.emit site = (r site).emit site) ∨
    t = customFunction ∨ t = formula ∨ t = loop :=
  forall_mem_all (fun _ _ r hr ↦ .inl ⟨fun _ ↦ r, fun _ ↦ by rw [emit_of_recipe? hr]⟩)
    (.inl ⟨_, fun _ ↦ rfl⟩) (.inl ⟨_, fun _ ↦ rfl⟩) (.inl ⟨_, fun _ ↦ rfl⟩) (.inr (.inl rfl))
    (.inr (.inr (.inl rfl))) (.inr (.inr (.inr rfl)))

def HasRecipe (t : NodeType) : Prop := ∀ site, ∃ l r, (t.emit site).Follows site (l :: r)

theorem hasRecipe_of_emit {t : NodeType} {l : Site → Line} {r : Site → Recipe}
    (h : ∀ site, t.emit site = Recipe.emit (l site :: r site) site) : HasRecipe t := fun site ↦
  ⟨l site, r site, h site ▸ Recipe.emit_follows _ site⟩

theorem hasRecipe_customFunction : HasRecipe customFunction := fun _ ↦
  ⟨_, _, Emission.declare_follows rfl rfl ..⟩

theorem hasRecipe_formula : HasRecipe formula := by
  intro site
  rw [emit_formula, formulaEmission]
  split
  · exact ⟨_, _, Emission.declare_follows rfl rfl ..⟩
  · split
    · exact ⟨_, _, Emission.declare_follows rfl rfl ..⟩
    · exact ⟨_, _, Emission.declare_follows rfl rfl ..⟩

theorem hasRecipe_loop : HasRecipe loop := fun _ ↦ ⟨_, _, Emission.declare_follows rfl rfl ..⟩

theorem hasRecipe_of_mem : ∀ t ∈ all, HasRecipe t := by
  have hne : ∀ t ∈ all, ∀ r ∈ t.recipe?, r ≠ [] := by decide +kernel
  refine forall_mem_all (fun t ht r hr ↦ ?_) (hasRecipe_of_emit fun _ ↦ rfl)
    (hasRecipe_of_emit fun _ ↦ rfl) (hasRecipe_of_emit fun _ ↦ rfl) hasRecipe_customFunction
    hasRecipe_formula hasRecipe_loop
  obtain ⟨l, r, rfl⟩ := List.exists_cons_of_ne_nil (hne t ht r hr)
  exact hasRecipe_of_emit fun site ↦ by rw [emit_of_recipe? hr]

end Catalogue

end NodeShader

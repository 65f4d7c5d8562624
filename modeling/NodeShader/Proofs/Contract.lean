import NodeShader.Proofs.Distinctness
import NodeShader.Proofs.Inlets
import NodeShader.Proofs.Safety
import NodeShader.Proofs.Signature

namespace NodeShader

open Text Glsl

def openTypes : List String := ["CustomFunction", "Expr", "Loop"]

namespace NodeType

/-- What every instance of the type reads: the inputs of the type, or, if it has none, the parameters
that are called like its outputs. -/
def fixedReads (t : NodeType) : List Pin :=
  if t.inputs.isEmpty then (t.outputs.map (·.toPin)).filter (t.defaults.contains ·.key)
  else t.inputs.map (·.toPin)

def reads (t : NodeType) (site : Site) : List Pin :=
  if t.role = .loop then [⟨carryKey, carryTypeOf site.ownInputs site.params⟩]
  else if t.name ∈ openTypes then site.inputs
  else t.fixedReads

/-- What every instance of the type gives: the colour that it writes, or the outputs of the type. -/
def fixedResults (t : NodeType) : List Pin :=
  match t.role with
  | .output alpha => [⟨"color", if alpha then .vec4 else .vec3⟩]
  | .plain | .loop => t.outputs.map (·.toPin)

def results (t : NodeType) (site : Site) : List Pin :=
  if t.role = .loop then [⟨resultKey, carryTypeOf site.ownInputs site.params⟩]
  else if t.name = "CustomFunction" then
    [⟨"out", ((site.outputType? "out") <|> ((site.text? "returnType").bind GlslType.ofWord?)).getD .float⟩]
  else if t.name = "Expr" then [⟨"out", (site.outputType? "out").getD .float⟩]
  else t.fixedResults

end NodeType

/-- The sockets of the node are those of its type, or, if the type is open, any with different keys. -/
def Node.Conforms (n : Node) (t : NodeType) : Prop :=
  if t.name ∈ openTypes then (n.inputs.map (·.key)).Nodup
  else (n.inlets t).map (·.toPin) = t.inputs.map (·.toPin)

def Unfolded (wires : Dict Term) : Prop := ∀ key x, wires.get? key = some x → Unbroken x.text

namespace Site

variable {site : Site}

theorem unbroken_read (h : Unfolded site.wires) (key : String) (type : GlslType) :
    Unbroken (site.read key type).text := by
  unfold read
  split
  · rename_i x hx
    exact Term.unbroken_coerce (h key x hx) type
  · split
    · rename_i text htext
      exact (isExpression_literal? htext).unbroken
    · exact type.isExpression_zero.unbroken

theorem unbroken_variableName (key : String) : Unbroken (site.variableName key) :=
  (isExpression_variableName key).unbroken

end Site

theorem Line.unbroken_fill {l : Line} {site : Site} (hl : ∀ p ∈ l.value, p.isInert)
    (h : Unfolded site.wires) : Unbroken (l.fill site) := by
  intro hmem
  rw [Line.fill, String.toList_join, List.flatMap_map] at hmem
  obtain ⟨p, hp, hmem⟩ := List.mem_flatMap.1 hmem
  cases p with
  | text s =>
    have hinert : ∀ c ∈ s.toList, endsStatement c = false := by simpa [Piece.isInert] using hl _ hp
    cases hinert _ hmem
  | read key type => exact Site.unbroken_read h key type hmem
  | var key => exact Site.unbroken_variableName key hmem

namespace Catalogue

/-- What a type keeps to wherever it is emitted: it gives the outputs it should, depends on the wires
only through what it reads, and writes no line breaks of its own. -/
structure Keeps (t : NodeType) : Prop where
  pins : ∀ site, pinsOf (t.emit site).outputs = t.results site
  reads : ∀ site wires, (∀ k, wires.contains k = site.wires.contains k) →
    (∀ p ∈ t.reads site, { site with wires := wires }.read p.key p.type = site.read p.key p.type) →
    t.emit { site with wires := wires } = t.emit site
  unbroken : ∀ site, Unfolded site.wires → ∀ s ∈ (t.emit site).statements, Unbroken s.value

def Suits (t : NodeType) (r : Recipe) : Prop :=
  (∀ l ∈ r, (∀ p ∈ l.value, p.isInert) ∧ ∀ p ∈ l.reads, p ∈ t.fixedReads) ∧ r.pins = t.fixedResults

instance (t : NodeType) (r : Recipe) : Decidable (Suits t r) := inferInstanceAs (Decidable (_ ∧ _))

theorem keeps_of_emit {t : NodeType} {r : Site → Recipe} (h : ∀ site, t.emit site = (r site).emit site)
    (hsteady : ∀ site wires, (∀ k, wires.contains k = site.wires.contains k) →
      r { site with wires := wires } = r site)
    (hr : ∀ site, Suits t (r site)) (ht : t.role ≠ .loop ∧ t.name ∉ openTypes) : Keeps t := by
  have hreads : ∀ site, t.reads site = t.fixedReads := fun site ↦ by simp [NodeType.reads, ht]
  have hresults : ∀ site, t.results site = t.fixedResults := by
    have hnames : t.name ≠ "CustomFunction" ∧ t.name ≠ "Expr" := by simp_all [openTypes]
    intro site
    simp [NodeType.results, ht, hnames]
  refine ⟨fun site ↦ ?_, fun site wires hk hsame ↦ ?_, fun site hl s hs ↦ ?_⟩
  · rw [h, (Recipe.emit_follows (r site) site).pinsOf_outputs, hresults, (hr site).2]
  · rw [h, h, hsteady site wires hk]
    refine Recipe.emit_congr rfl fun l hl p hp ↦ hsame p ?_
    rw [hreads]
    exact ((hr site).1 l hl).2 p hp
  · rw [h, (Recipe.emit_follows (r site) site).statements] at hs
    obtain ⟨l, hline, rfl⟩ := List.mem_map.1 hs
    exact Line.unbroken_fill ((hr site).1 l hline).1 hl

theorem hasPhase_congr {site : Site} {wires : Dict Term}
    (h : ∀ k, wires.contains k = site.wires.contains k) :
    hasPhase { site with wires := wires } = hasPhase site := by
  unfold hasPhase
  rw [h]
  rfl

theorem keeps_wave {name f : String} (hname : name ∉ openTypes) (hf : f = "sin" ∨ f = "cos") :
    Keeps (wave name f) := by
  refine keeps_of_emit (fun _ ↦ rfl) (fun site wires hk ↦ ?_) (fun site ↦ ?_) ⟨nofun, hname⟩
  · simp only [hasPhase_congr hk]
  · -- The name of the type plays no part.
    change Suits (wave "" f) _
    rcases hf with rfl | rfl <;> cases hasPhase site <;> decide

theorem keeps_fbm : Keeps fbm := by
  refine keeps_of_emit (fun _ ↦ rfl) (fun _ _ _ ↦ rfl) (fun site ↦ ⟨fun l hl ↦ ?_, rfl⟩) (by decide)
  obtain rfl := List.mem_singleton.1 hl
  have hcount := balanced_toString (octaves site)
  have hinert : (Piece.text (toString (octaves site))).isInert := by
    simpa [Piece.isInert] using hcount.inert
  constructor
  · simp only [List.forall_mem_cons, hinert]
    decide
  · change ∀ p ∈ [(⟨"uv", .vec2⟩ : Pin), ⟨"scale", .float⟩, ⟨"gain", .float⟩], p ∈ fbm.fixedReads
    decide

theorem keeps_customFunction : Keeps customFunction where
  pins site := pinsOf_declare rfl ..
  reads site wires _ hsame := by
    have harguments : arguments { site with wires := wires } = arguments site :=
      List.map_congr_left fun p hp ↦ congrArg Term.text (hsame p hp)
    rw [emit_customFunction, harguments]
    rfl
  unbroken site hl s hs := by
    obtain rfl := List.mem_singleton.1 hs
    have harguments : Unbroken (", ".intercalate (arguments site)) := by
      refine .intercalate (by decide) fun text htext ↦ ?_
      obtain ⟨p, -, rfl⟩ := List.mem_map.1 htext
      exact Site.unbroken_read hl p.key p.type
    have hname := (isIdentifier_identifier ("cf_" ++ site.symbol)).isExpression.unbroken
    exact ((hname.append (by decide)).append harguments).append (by decide)

theorem keeps_formula : Keeps formula where
  pins site := pinsOf_formulaEmission site
  reads site wires _ hsame := by
    have hbinding : binding { site with wires := wires } = binding site := by
      funext name
      have hinputs : Site.inputs { site with wires := wires } = site.inputs := rfl
      rw [binding, hinputs, binding]
      refine Option.map_congr fun p hfind ↦ ?_
      rw [hsame p (List.mem_reverse.1 (List.mem_of_find?_eq_some hfind))]
    rw [emit_formula, formulaEmission, hbinding]
    rfl
  unbroken site hl s hs := by
    have hzero : ∀ type : GlslType, Unbroken type.zero := fun type ↦ type.isExpression_zero.unbroken
    rw [emit_formula, formulaEmission] at hs
    split at hs
    · obtain rfl := List.mem_singleton.1 hs
      exact hzero _
    · split at hs
      · rename_i text htext
        obtain rfl := List.mem_singleton.1 hs
        refine Formula.glued_toGlsl Formula.glues_unbroken (fun x text hx ↦ ?_) htext
        obtain ⟨p, -, rfl⟩ := Option.map_eq_some_iff.1 hx
        exact Site.unbroken_read hl p.key p.type
      · obtain rfl := List.mem_singleton.1 hs
        exact hzero _

theorem keeps_loop : Keeps loop where
  pins site := pinsOf_declare rfl ..
  reads site wires _ hsame := by
    have hcarry := hsame _ (List.mem_singleton_self _)
    rw [emit_loop]
    exact congrArg (fun x : Term ↦ Emission.declare {} site resultKey _ x.text) hcarry
  unbroken site hl s hs := by
    obtain rfl := List.mem_singleton.1 hs
    exact Site.unbroken_read hl _ _

theorem keeps_of_mem : ∀ t ∈ all, Keeps t := by
  have hsuits : ∀ t ∈ all, ∀ r ∈ t.recipe?, Suits t r ∧ t.role ≠ .loop ∧ t.name ∉ openTypes := by
    decide +kernel
  refine forall_mem_all (fun t ht r hr ↦ ?_) (keeps_wave (by decide) (.inl rfl))
    (keeps_wave (by decide) (.inr rfl)) keeps_fbm keeps_customFunction keeps_formula keeps_loop
  obtain ⟨hr', ht'⟩ := hsuits t ht r hr
  exact keeps_of_emit (congrFun (emit_of_recipe? hr)) (fun _ _ _ ↦ rfl) (fun _ ↦ hr') ht'

end Catalogue

def opensDeclaration (x : Term) (line : String) : Bool :=
  (x.type.name ++ " " ++ x.text ++ " = ").toList.isPrefixOf line.toList

theorem append_space_inj {xs ys us vs : List Char} (hxs : ' ' ∉ xs) (hys : ' ' ∉ ys)
    (h : xs ++ ' ' :: us = ys ++ ' ' :: vs) : xs = ys ∧ us = vs := by
  obtain rfl : xs = ys := by
    rw [← (upTo_mark hxs us).1, h, (upTo_mark hys vs).1]
  exact ⟨rfl, by simpa using h⟩

namespace Statement

variable {s : Statement} {ss : List Statement} {x : Term}

theorem opensDeclaration_text (hs : ' ' ∉ s.name.toList) (hx : ' ' ∉ x.text.toList) :
    opensDeclaration x s.text ↔ s.type = x.type ∧ s.name = x.text := by
  have htype : ∀ type : GlslType, ' ' ∉ type.name.toList := by
    intro type
    cases type <;> decide
  have hinj : ∀ type type' : GlslType, type.name.toList = type'.name.toList → type = type' := by
    intro type type' h
    cases type <;> cases type' <;> first | rfl | exact absurd h (by decide)
  have hline : (x.type.name ++ " " ++ x.text ++ " = ").toList =
      x.type.name.toList ++ ' ' :: (x.text.toList ++ ' ' :: ['=', ' ']) := by simp
  have htext : s.text.toList =
      s.type.name.toList ++ ' ' :: (s.name.toList ++ ' ' :: ('=' :: ' ' :: (s.value.toList ++ [';']))) := by
    simp [Statement.text]
  rw [opensDeclaration, List.isPrefixOf_iff_prefix, hline, htext]
  constructor
  · rintro ⟨rest, h⟩
    rw [List.append_assoc, List.cons_append, List.append_assoc, List.cons_append] at h
    obtain ⟨hkind, h⟩ := append_space_inj (htype x.type) (htype s.type) h
    exact ⟨(hinj _ _ hkind).symm, (String.toList_inj.1 (append_space_inj hx hs h).1).symm⟩
  · rintro ⟨hkind, hname⟩
    rw [hkind, hname]
    exact ⟨s.value.toList ++ [';'], by simp⟩

/-- Among declarations of different variables, each on a line, one line declares the variable. -/
theorem countP_lines (hvalues : ∀ s ∈ ss, Unbroken s.value) (hnames : ∀ s ∈ ss, IsIdentifier s.name)
    (hnodup : (ss.map (·.name)).Nodup) (hs : s ∈ ss) (type : GlslType) :
    (Text.lines (blockText ss)).countP (opensDeclaration ⟨type, s.name⟩) =
      if type = s.type then 1 else 0 := by
  have hspace : ∀ s ∈ ss, ' ' ∉ s.name.toList := fun s hs hmem ↦ by cases (hnames s hs).word _ hmem
  have htexts : ∀ s ∈ ss, Unbroken s.text := by
    intro s hs
    have htype : Unbroken s.type.name := by cases s.type <;> decide
    have hname := (hnames s hs).isExpression.unbroken
    have hstart := ((htype.append (by decide : Unbroken " ")).append hname).append
      (by decide : Unbroken " = ")
    exact (hstart.append (hvalues s hs)).append (by decide)
  rw [lines_blockText_of_unbroken htexts, List.countP_map]
  have hopens : ∀ s' ∈ ss, opensDeclaration ⟨type, s.name⟩ s'.text ↔ s' = s ∧ type = s.type := by
    intro s' hs'
    rw [opensDeclaration_text (hspace s' hs') (hspace s hs)]
    constructor
    · intro ⟨htype, hname⟩
      obtain rfl := List.inj_on_of_nodup_map hnodup hs' hs hname
      exact ⟨rfl, htype.symm⟩
    · rintro ⟨rfl, htype⟩
      exact ⟨htype.symm, rfl⟩
  split
  · rename_i htype
    have hcount : ss.countP (opensDeclaration ⟨type, s.name⟩ ∘ text) = ss.count s :=
      List.countP_congr fun s' hs' ↦ by
        rw [Function.comp_apply, hopens s' hs', beq_iff_eq, and_iff_left htype]
    rw [hcount, List.count_eq_one_of_mem hnodup.of_map hs]
  · rename_i htype
    exact List.countP_eq_zero.2 fun s' hs' hs ↦ htype ((hopens s' hs').1 hs).2

end Statement

namespace Catalogue

variable {t : NodeType} {n : Node} {wires : Dict Term}

theorem nodup_inputs : ∀ t ∈ all, (t.inputs.map (·.key)).Nodup := by decide +kernel

theorem nodup_inlets (ht : t ∈ all) (hn : n.Conforms t) : ((n.inlets t).map (·.key)).Nodup := by
  have hfixed : (n.inlets t).map (·.key) = t.inputs.map (·.key) → ((n.inlets t).map (·.key)).Nodup :=
    fun hkeys ↦ hkeys ▸ nodup_inputs t ht
  by_cases hnone : n.inputs = []
  · exact hfixed (by simp [Node.inlets, hnone])
  · unfold Node.Conforms at hn
    split at hn
    · simpa [Node.inlets, hnone, Function.comp_def] using hn
    · refine hfixed ?_
      simpa [Function.comp_def] using congrArg (List.map (·.key)) hn

/-- What is wired to an input can be read at its type. -/
theorem type_of_mem_inlets {p : Pin} {x : Term} (ht : t ∈ all) (hn : n.Conforms t) (hw : n.Accepts t wires)
    (hp : p ∈ (n.inlets t).map (·.toPin)) (hx : wires.get? p.key = some x) :
    x.type = p.type ∨ x.type = .float := by
  obtain ⟨i, hi, hkey, hfeeds⟩ := hw p.key x hx
  obtain ⟨j, hj, rfl⟩ := List.mem_map.1 hp
  obtain rfl := List.inj_on_of_nodup_map (nodup_inlets ht hn) hi hj hkey
  exact GlslType.feeds_cases hfeeds

/-- What is wired to an input that the type reads can be read at the type that it is read at. -/
theorem type_of_mem_reads {p : Pin} {x : Term} (ht : t ∈ all) (hn : n.Conforms t) (hw : n.Accepts t wires)
    (stem : String) (hp : p ∈ t.reads (n.site t stem wires)) (hx : wires.get? p.key = some x) :
    x.type = p.type ∨ x.type = .float := by
  unfold NodeType.reads at hp
  split at hp
  · rename_i hrole
    obtain rfl := eq_loop_of_mem ht hrole
    obtain rfl := List.mem_singleton.1 hp
    exact hw.type_carry hn hx
  · split at hp
    · exact type_of_mem_inlets ht hn hw hp hx
    · rename_i hopen
      have hsockets : (n.inlets t).map (·.toPin) = t.inputs.map (·.toPin) := by
        rwa [Node.Conforms, if_neg hopen] at hn
      unfold NodeType.fixedReads at hp
      split at hp
      · rename_i hnone
        -- A node without inputs has no wires.
        obtain ⟨i, hi, -⟩ := hw p.key x hx
        have hpin : i.toPin ∈ t.inputs.map (·.toPin) := hsockets ▸ List.mem_map_of_mem hi
        rw [List.isEmpty_iff.1 hnone] at hpin
        cases hpin
      · exact type_of_mem_inlets ht hn hw (hsockets ▸ hp) hx

end Catalogue

theorem Emission.Follows.outputs_eq {e : Emission} {site : Site} {r : Recipe} (h : e.Follows site r) :
    e.outputs = (pinsOf e.outputs).map fun p ↦ (p.key, ⟨p.type, site.variableName p.key⟩) := by
  rw [h.pinsOf_outputs, h.outputs]
  simp [Recipe.pins]

theorem Catalogue.HasKeys.nodup_names {t : NodeType} {keys : List String} (h : HasKeys t keys)
    (site : Site) : ((t.emission site).statements.map (·.name)).Nodup := by
  rw [h.names]
  refine h.nodup.map_on fun key hkey key' hkey' heq ↦ ?_
  exact (variableName_inj (h.covers key hkey).1 (h.covers key' hkey').1 heq).2

open Catalogue in
/-- Whatever the parameters of a node are and whichever of its inputs are wired, each input is read at its
own type, the wires matter only through what is read, and the outputs are those that the type gives, each
declared on one line. -/
theorem emission_contract {t : NodeType} {n : Node} {wires : Dict Term} (ht : t ∈ all)
    (hn : n.Conforms t) (hw : n.Accepts t wires) (hl : Unfolded wires) (stem symbol : String) :
    let site := { n.site t stem wires with symbol := symbol }
    (∀ p ∈ t.reads site, Reading site p.key p.type (site.read p.key p.type) ∧
      (site.read p.key p.type).type = p.type) ∧
    (∀ wires' : Dict Term, (∀ k, wires'.contains k = wires.contains k) →
      (∀ p ∈ t.reads site, { site with wires := wires' }.read p.key p.type = site.read p.key p.type) →
      t.emission { site with wires := wires' } = t.emission site) ∧
    (t.emission site).outputs =
      (t.results site).map (fun p ↦ (p.key, ⟨p.type, variableName stem p.key⟩)) ∧
    ∀ p ∈ t.results site, ∀ type : GlslType,
      (Text.lines (blockText (t.emission site).statements)).countP
        (opensDeclaration ⟨type, variableName stem p.key⟩) = if type = p.type then 1 else 0 := by
  intro site
  have hkeeps := keeps_of_mem t ht
  obtain ⟨keys, hkeys⟩ := hasKeys_of_mem t ht
  obtain ⟨l, r, hfollows⟩ := hasRecipe_of_mem t ht site
  have houtputs : (t.emission site).outputs =
      (t.results site).map (fun p ↦ (p.key, ⟨p.type, variableName stem p.key⟩)) := by
    rw [← hkeeps.pins]
    exact hfollows.outputs_eq
  refine ⟨fun p hp ↦ ?_, fun wires' hk hsame ↦ ?_, houtputs, fun p hp type ↦ ?_⟩
  · have hread : Reading site p.key p.type (site.read p.key p.type) :=
      Site.reading fun x hx ↦ type_of_mem_reads ht hn hw stem hp hx
    exact ⟨hread, hread.type_eq⟩
  · simp only [NodeType.emission, hkeeps.reads site wires' hk hsame]
  · have hdeclared := hfollows.declared (List.cons_ne_nil l r)
    have hmem : (p.key, (⟨p.type, variableName stem p.key⟩ : Term)) ∈ (t.emission site).outputs := by
      rw [houtputs]
      exact List.mem_map_of_mem hp
    obtain ⟨s, hs, htype, hname⟩ := hdeclared.outputs _ hmem
    have hstatements : (t.emission site).statements = _ := hfollows.statements
    have hnames : ∀ s ∈ (t.emission site).statements, IsIdentifier s.name := by
      intro s hs
      obtain ⟨l, -, rfl⟩ := List.mem_map.1 (hstatements ▸ hs)
      exact isIdentifier_variableName _ _
    have hcount := Statement.countP_lines (hkeeps.unbroken site hl) hnames (hkeys.nodup_names site) hs type
    rw [hname, htype] at hcount
    exact hcount

def Sample.tint : Node where
  id := "tint"
  typeName := "CustomFunction"
  inputs := [{ key := "a", type := .vec3 }, { key := "b", type := .vec2 }]
  outputs := [{ key := "other", type := .vec4 }]
  params := .ofList [("b", .ofFields [("r", .bool true), ("y", .int 2)]), ("returnType", .string " Color ")]

def Sample.tintWires : Dict Term := Dict.empty.insert "a" ⟨.float, "k"⟩

def Sample.tintSite : Site :=
  { Sample.tint.site Catalogue.customFunction "tint" Sample.tintWires with symbol := "tint" }

open Catalogue in
theorem emission_contract_tint :
    Sample.tint.Conforms customFunction ∧ Sample.tint.Accepts customFunction Sample.tintWires ∧
      Unfolded Sample.tintWires ∧
      customFunction.reads Sample.tintSite = [⟨"a", .vec3⟩, ⟨"b", .vec2⟩] ∧
      Sample.tintSite.read "a" .vec3 = ⟨.vec3, "vec3(k)"⟩ ∧
      Sample.tintSite.read "b" .vec2 = ⟨.vec2, "vec2(1.0, 2.0)"⟩ ∧
      Reading Sample.tintSite "b" .vec2 (Sample.tintSite.read "b" .vec2) ∧
      (customFunction.emission Sample.tintSite).outputs = [("out", ⟨.vec3, "tint_out"⟩)] ∧
      (Text.lines (blockText (customFunction.emission Sample.tintSite).statements)).countP
        (opensDeclaration ⟨.vec3, "tint_out"⟩) = 1 ∧
      (Text.lines (blockText (customFunction.emission Sample.tintSite).statements)).countP
        (opensDeclaration ⟨.vec4, "tint_out"⟩) = 0 := by
  have hn : Sample.tint.Conforms customFunction := by
    rw [Node.Conforms, if_pos (by decide)]
    decide
  have hnone : Sample.tint.Accepts customFunction .empty := nofun
  have hw : Sample.tint.Accepts customFunction Sample.tintWires := hnone.insert (.head _) rfl
  have hl : Unfolded Sample.tintWires := by
    intro key x hx
    rw [Sample.tintWires, Dict.get?_insert] at hx
    split at hx
    · cases hx
      decide
    · cases hx
  obtain ⟨hreads, -, houtputs, honce⟩ := emission_contract customFunction_mem hn hw hl "tint" "tint"
  have hresults : customFunction.results Sample.tintSite = [⟨"out", .vec3⟩] := by decide +kernel
  have hpins : customFunction.reads Sample.tintSite = [⟨"a", .vec3⟩, ⟨"b", .vec2⟩] := by
    decide +kernel
  have hb : ⟨"b", .vec2⟩ ∈ customFunction.reads Sample.tintSite := by
    rw [hpins]
    exact .tail _ (.head _)
  have hout : ⟨"out", .vec3⟩ ∈ customFunction.results Sample.tintSite := by
    rw [hresults]
    exact .head _
  refine ⟨hn, hw, hl, hpins, by decide +kernel, by decide +kernel, (hreads _ hb).1, ?_,
    honce _ hout .vec3, honce _ hout .vec4⟩
  exact houtputs.trans (congrArg (List.map _) hresults)

end NodeShader

import NodeShader.Proofs.Verdict

namespace NodeShader

open Relation Schedule

namespace Schedule

variable {g : Graph} {lib : Library} {a id target : String} {n : Node} {t : NodeType}
  {path : List String} {s s' : Schedule}

theorem isKnown_eq_false_iff : isKnown lib n = false ↔ lib.find? n.typeName = none := by
  simp [isKnown, Library.contains, Dict.contains, Library.find?]

theorem mem_unknowns {d : Diagnostic} : d ∈ unknowns g lib n ↔
    ∃ m ∈ reads g lib n, isKnown lib m = false ∧ .unknownType m.id m.typeName = d := by
  simp [unknowns, and_assoc]

variable (g lib) in
def IsUnknown (id typeName : String) : Prop :=
  ∃ m, g.find? id = some m ∧ m.typeName = typeName ∧ lib.find? typeName = none

variable (g lib) in
def Names (a id : String) : Prop :=
  ∃ n t, Present g lib a n t ∧ ∃ i ∈ n.inlets t, ∃ w, i.wire = some w ∧ w.node = id

variable (g lib) in
/-- What is read of unknown type by the nodes that the search has entered is reported, once each. -/
structure Reports (path : List String) (s : Schedule) : Prop where
  nodup : s.diagnostics.Nodup
  mem_iff : ∀ d, d ∈ s.diagnostics ↔
    ∃ a n t, (a ∈ s.order ∨ a ∈ path) ∧ Present g lib a n t ∧ d ∈ unknowns g lib n

theorem Reports.enter (h : Reports g lib path s) (hn : Present g lib a n t) :
    Reports g lib (path ++ [a])
      { s with diagnostics := mergeNew s.diagnostics (unknowns g lib n) } where
  nodup := nodup_mergeNew h.nodup _
  mem_iff d := by
    rw [mem_mergeNew, h.mem_iff]
    constructor
    · intro hd
      rcases hd with ⟨b, m, u, hb, hm, hd⟩ | hd
      · exact ⟨b, m, u, hb.imp_right (List.mem_append_left _), hm, hd⟩
      · exact ⟨a, n, t, .inr (by simp), hn, hd⟩
    · intro ⟨b, m, u, hb, hm, hd⟩
      rw [List.mem_append, List.mem_singleton, ← or_assoc] at hb
      rcases hb with hb | rfl
      · exact .inl ⟨b, m, u, hb, hm, hd⟩
      · obtain ⟨rfl, -⟩ := hn.unique hm
        exact .inr hd

theorem Reports.leave (h : Reports g lib (path ++ [a]) s) :
    Reports g lib path { s with order := s.order ++ [a] } where
  nodup := h.nodup
  mem_iff d := by
    have hmem : ∀ b, b ∈ s.order ∨ b ∈ path ++ [a] ↔ b ∈ s.order ++ [a] ∨ b ∈ path := by
      intro b
      simp only [List.mem_append, List.mem_singleton]
      tauto
    simp only [h.mem_iff, hmem]

theorem visit_reports (room : Nat) (hn : Present g lib a n t) (hs : Reports g lib path s)
    (h : visit g lib room path n s = .ok s') : Reports g lib path s' := by
  induction room generalizing path a n t s s' with
  | zero => cases h
  | succ room ih =>
    rw [visit, hn.id_eq] at h
    obtain ⟨s₁, hfold, h⟩ := bind_eq_ok.1 h
    cases h
    apply Reports.leave
    refine foldlM_eq_ok_induction (Reports g lib (path ++ [a])) hfold (hs.enter hn) ?_
    intro s₁ s₂ b hb henter hs₁
    unfold enter at henter
    split at henter
    · cases henter
      exact hs₁
    · split at henter
      · cases henter
      · have hd : DependsOn g lib a b := ⟨n, t, hn, hb⟩
        obtain ⟨m, u, hm⟩ := hd.known
        simp only [hm.node] at henter
        exact ih hm hs₁ henter

theorem schedule_reports (ht : Known g lib target) (hs : schedule g lib target = .ok s) :
    Reports g lib [] s := by
  obtain ⟨n, t, hn⟩ := ht
  simp only [schedule, hn.node, hn.isKnown, if_true] at hs
  refine visit_reports g.nodes.length hn ⟨List.nodup_nil, ?_⟩ hs
  simp

/-- A schedule reports the nodes of unknown type that are wired to a node of it or to what such a node
runs. -/
theorem mem_diagnostics_schedule {d : Diagnostic} (ht : Known g lib target)
    (hs : schedule g lib target = .ok s) :
    d ∈ s.diagnostics ↔ ∃ id typeName, .unknownType id typeName = d ∧ IsUnknown g lib id typeName ∧
      ∃ c, (∃ a ∈ s.order, ReflTransGen (Runs g lib) a c) ∧ Names g lib c id := by
  rw [(schedule_reports ht hs).mem_iff]
  constructor
  · intro ⟨a, n, t, ha, hn, hd⟩
    obtain ⟨m, hm, hunknown, rfl⟩ := mem_unknowns.1 hd
    obtain ⟨c, k, v, hc, hk, hsource⟩ := (mem_reads_of_unknown hn hunknown).1 hm
    obtain ⟨i, hi, w, hw, hnode⟩ := mem_sources.1 hsource
    have hid := Graph.id_of_find? hnode
    exact ⟨m.id, m.typeName, rfl, ⟨m, hid ▸ hnode, rfl, isKnown_eq_false_iff.1 hunknown⟩, c,
      ⟨a, by simpa using ha, hc⟩, k, v, hk, i, hi, w, hw, hid.symm⟩
  · intro ⟨id, typeName, hd, ⟨m, hm, htype, hnone⟩, c, ⟨a, ha, hc⟩, k, v, hk, i, hi, w, hw, hid⟩
    obtain ⟨n, t, hn⟩ := (placed_of_schedule hs).known a ha
    obtain rfl := Graph.id_of_find? hm
    subst htype
    have hunknown := isKnown_eq_false_iff.2 hnone
    have hsource : m ∈ sources g k v := mem_sources.2 ⟨i, hi, w, hw, hid.symm ▸ hm⟩
    have hread := (mem_reads_of_unknown hn hunknown).2 ⟨c, k, v, hc, hk, hsource⟩
    exact ⟨a, n, t, .inl ha, hn, mem_unknowns.2 ⟨m, hread, hunknown, hd⟩⟩

end Schedule

namespace Catalogue

theorem eq_formula_of_mem {t : NodeType} (ht : t ∈ all) (hname : t.name = "Expr") : t = formula :=
  eq_of_name ht formula_mem hname

theorem ne_formula_of_loop {t : NodeType} (ht : t.role = .loop) : t ≠ formula := by
  intro h
  rw [h] at ht
  cases ht

theorem diagnostics_of_mem {t : NodeType} (ht : t ∈ all) (hformula : t ≠ formula) (site : Site) :
    (t.emission site).diagnostics = [] := by
  rcases recipe_or_of_mem t ht with ⟨r, hr⟩ | rfl | rfl | rfl
  · simp only [NodeType.emission, hr]
    exact (Recipe.emit_plain _ site).2
  · rfl
  · exact absurd rfl hformula
  · rfl

def Rejects (n : Node) (message : String) : Prop :=
  ∃ source e, n.params.get? "expression" = some (.string source) ∧ Text.blank source = false ∧
    Formula.parse source = .error e ∧ e.message = message

theorem mem_diagnostics_formulaEmission (site : Site) {d : Diagnostic} :
    d ∈ (formulaEmission site).diagnostics ↔
      ∃ source e, site.text? "expression" = some source ∧ Text.blank source = false ∧
        Formula.parse source = .error e ∧ .invalidFormula site.node.id e.message = d := by
  unfold formulaEmission
  cases hsource : site.text? "expression" with
  | none => simp [Emission.declare, Emission.bind]
  | some source =>
    cases hblank : Text.blank source with
    | true => simp [Emission.declare, Emission.bind, hblank]
    | false =>
      cases hparse : Formula.parse source with
      | ok e => simp [Emission.declare, Emission.bind, hblank, Formula.toGlsl, hparse]
      | error e =>
        simpa [Emission.declare, Emission.bind, hblank, Formula.toGlsl, hparse] using eq_comm

theorem mem_diagnostics_formula {n : Node} {stem symbol : String} {wires : Dict Term}
    {d : Diagnostic} :
    d ∈ (formula.emission { n.site formula stem wires with symbol := symbol }).diagnostics ↔
      ∃ message, Rejects n message ∧ .invalidFormula n.id message = d := by
  have htext : ({ n.site formula stem wires with symbol := symbol } : Site).text? "expression" =
      (n.params.get? "expression" <|> some (Json.string "a")).bind Json.string? := rfl
  apply (mem_diagnostics_formulaEmission _).trans
  rw [htext]
  constructor
  · intro ⟨source, e, hsource, hblank, hparse, hd⟩
    cases hparam : n.params.get? "expression" with
    | none =>
      -- The formula that stands in for none can be read.
      obtain rfl : "a" = source := by simpa [hparam, Json.string?] using hsource
      cases hparse
    | some v =>
      have hv : v.string? = some source := by simpa [hparam] using hsource
      cases v with
      | string text =>
        obtain rfl : text = source := by simpa [Json.string?] using hv
        exact ⟨e.message, ⟨text, e, hparam, hblank, hparse, rfl⟩, hd⟩
      | _ => cases hv
  · intro ⟨message, ⟨source, e, hparam, hblank, hparse, he⟩, hd⟩
    refine ⟨source, e, ?_, hblank, hparse, he ▸ hd⟩
    rw [hparam]
    rfl

end Catalogue

namespace Bench

variable {b : Bench} {id c : String} {n : Node} {t : NodeType} {d : Diagnostic}

section Remarks

variable (b)

def Misses (l s : String) : Prop :=
  ∃ n t, Present b.graph b.library l n t ∧ t.role = .loop ∧ s ∈ n.steps ∧ b.graph.find? s = none

def Rejects (id message : String) : Prop :=
  ∃ n t, Present b.graph b.library id n t ∧ n.typeName = "Expr" ∧ Catalogue.Rejects n message

def Remarks (c : String) (d : Diagnostic) : Prop :=
  (∃ s, b.Misses c s ∧ .missingStep c s = d) ∨
  (∃ s typeName, b.Takes c s ∧ IsUnknown b.graph b.library s typeName ∧
    .unknownType s typeName = d) ∨
  ∃ message, b.Rejects c message ∧ .invalidFormula c message = d

end Remarks

/-- A node that takes no step has only remarks of its own. -/
theorem exists_remarks_iff (h : ∀ c, ¬ b.Takes id c) :
    (∃ c, ReflTransGen b.Expands id c ∧ b.Remarks c d) ↔ b.Remarks id d := by
  simp [expands_all_iff_eq h]

theorem misses_iff (hn : Present b.graph b.library id n t) :
    b.Misses id c ↔ t.role = .loop ∧ c ∈ b.missingSteps n := by
  simp only [missingSteps, List.mem_filter, Option.isNone_iff_eq_none]
  exact hn.exists_iff

theorem rejects_iff (hb : b.library = .builtin) (hn : Present b.graph b.library id n t)
    {message : String} :
    b.Rejects id message ↔ t = Catalogue.formula ∧ Catalogue.Rejects n message := by
  have htype : Library.builtin.find? n.typeName = some t := hb ▸ hn.type
  obtain ⟨hmem, hname⟩ := Library.find?_ofList_eq_some htype
  apply hn.exists_iff.trans
  constructor
  · intro ⟨hexpr, h⟩
    exact ⟨Catalogue.eq_formula_of_mem hmem (hname.trans hexpr), h⟩
  · intro ⟨hformula, h⟩
    subst hformula
    exact ⟨hname.symm, h⟩

/-- A loop remarks on each missing step, or else it runs and remarks on each step of unknown type. -/
theorem remarks_of_loop (hb : b.library = .builtin) (hn : Present b.graph b.library id n t)
    (ht : t.role = .loop) : b.Remarks id d ↔
      (∃ s ∈ b.missingSteps n, .missingStep id s = d) ∨
      b.missingSteps n = [] ∧ 0 < b.turns n ∧ ∃ s ∈ n.steps, ∃ typeName,
        IsUnknown b.graph b.library s typeName ∧ .unknownType s typeName = d := by
  have hformula := Catalogue.ne_formula_of_loop ht
  simp [Remarks, misses_iff hn, takes_iff hn, rejects_iff hb hn, ht, hformula, and_assoc]

theorem remarks_of_not_loop (hb : b.library = .builtin) (hn : Present b.graph b.library id n t)
    (ht : t.role ≠ .loop) (stem symbol : String) (wires : Dict Term) : b.Remarks id d ↔
      d ∈ (t.emission { n.site t stem wires with symbol := symbol }).diagnostics := by
  have hremarks : b.Remarks id d ↔ t = Catalogue.formula ∧
      ∃ message, Catalogue.Rejects n message ∧ .invalidFormula id message = d := by
    simp [Remarks, misses_iff hn, takes_iff hn, rejects_iff hb hn, ht, and_assoc]
  rw [hremarks]
  by_cases hformula : t = Catalogue.formula
  · subst hformula
    rw [Catalogue.mem_diagnostics_formula, hn.id_eq, eq_self, true_and]
  · simp [Catalogue.diagnostics_of_mem (mem_all hb hn) hformula, hformula]

variable (b) in
/-- A step gives rise to the diagnostic: it is of unknown type, or something that it expands to has a
remark. -/
def StepRemarks (c : String) (d : Diagnostic) : Prop :=
  (∃ typeName, IsUnknown b.graph b.library c typeName ∧ .unknownType c typeName = d) ∨
  Known b.graph b.library c ∧ ∃ e, ReflTransGen b.Expands c e ∧ b.Remarks e d

theorem stepRemarks_of_unknown {m : Node} (hc : b.graph.find? c = some m)
    (hm : b.library.find? m.typeName = none) :
    b.StepRemarks c d ↔ .unknownType m.id m.typeName = d := by
  simp [StepRemarks, IsUnknown, not_known_of_find? hc hm, hc, hm, Graph.id_of_find? hc]

theorem stepRemarks_of_present (hn : Present b.graph b.library c n t) :
    b.StepRemarks c d ↔ ∃ e, ReflTransGen b.Expands c e ∧ b.Remarks e d := by
  have hknown : Known b.graph b.library c := ⟨n, t, hn⟩
  simp [StepRemarks, IsUnknown, hknown, hn.node, hn.type]

/-- A loop that runs has the remarks of its steps. -/
theorem exists_remarks_of_loop (hb : b.library = .builtin) (hn : Present b.graph b.library id n t)
    (ht : t.role = .loop) (hm : b.missingSteps n = []) (hturns : 0 < b.turns n) :
    (∃ c, ReflTransGen b.Expands id c ∧ b.Remarks c d) ↔ ∃ s ∈ n.steps, b.StepRemarks s d := by
  have hown := remarks_of_loop (d := d) hb hn ht
  simp only [expands_all_iff hn ht hm hturns]
  constructor
  · intro ⟨c, hc, hd⟩
    rcases hc with rfl | ⟨s, hs, hk, hsc⟩
    · rcases hown.1 hd with ⟨s, hs, -⟩ | ⟨-, -, s, hs, typeName, h⟩
      · rw [hm] at hs
        cases hs
      · exact ⟨s, hs, .inl ⟨typeName, h⟩⟩
    · exact ⟨s, hs, .inr ⟨hk, c, hsc, hd⟩⟩
  · intro ⟨s, hs, h⟩
    rcases h with ⟨typeName, h⟩ | ⟨hk, c, hc, hd⟩
    · exact ⟨id, .inl rfl, hown.2 (.inr ⟨hm, hturns, s, hs, typeName, h⟩)⟩
    · exact ⟨c, .inr ⟨s, hs, hk, hc⟩, hd⟩

theorem kept_remarks (hb : b.library = .builtin) :
    b.Kept (fun _ id _ e _ ↦ ∀ d, d ∈ e.diagnostics ↔
        ∃ c, ReflTransGen b.Expands id c ∧ b.Remarks c d)
      fun _ done _ turn ↦ ∀ d, d ∈ turn.emission.diagnostics ↔ ∃ s ∈ done, b.StepRemarks s.2 d where
  plain room stem wires scope hn ht d := by
    rw [exists_remarks_iff fun c hc ↦ ht ((takes_iff hn).1 hc).1]
    exact (remarks_of_not_loop hb hn ht ..).symm
  gap room stem wires scope hn ht hm d := by
    rw [exists_remarks_iff fun c hc ↦ hm ((takes_iff hn).1 hc).2.1, remarks_of_loop hb hn ht]
    simp [Emission.declare, Emission.bind, hm]
  idle room stem wires scope hn ht hm hs d := by
    rw [exists_remarks_iff (not_takes_of_idle hn hs), remarks_of_loop hb hn ht,
      Catalogue.diagnostics_of_mem (mem_all hb hn) (Catalogue.ne_formula_of_loop ht)]
    rcases hs with hs | hs
    · simp [hm, hs]
    · simp [hm, hs]
  run stem wires hn ht hm hturns hrun d := by
    rw [exists_remarks_of_loop hb hn ht hm hturns]
    exact (hrun d).trans (exists_mem_plan (b.StepRemarks · d) hturns)
  start room scope carry d := by simp
  skip k hc hm hturn d := by
    simp [Turn.skip, hturn d, stepRemarks_of_unknown hc hm, or_and_right, exists_or, eq_comm]
  step k type hm hstem hturn he d := by
    simp [Turn.append, hturn d, he d, stepRemarks_of_present hm, or_and_right, exists_or]

end Bench

/-- A draft reports what the nodes have to remark that are emitted in it. -/
theorem Draft.mem_diagnostics_ofOrder {g : Graph} {settings : Settings} {order : List String}
    {draft : Draft} (hk : ∀ id ∈ order, Known g .builtin id)
    (h : Draft.ofOrder g .builtin settings order = .ok draft) (x : Diagnostic) :
    x ∈ draft.diagnostics ↔
      ∃ c, (∃ a ∈ order, ReflTransGen (bench g .builtin settings {}).Expands a c) ∧
        (bench g .builtin settings {}).Remarks c x := by
  refine ofOrder_progress (fun done d ↦ ∀ x, x ∈ d.diagnostics ↔
    ∃ c, (∃ a ∈ done, ReflTransGen (bench g .builtin settings {}).Expands a c) ∧
      (bench g .builtin settings {}).Remarks c x) h (by simp) ?_ x
  intro done d d' a ha hadd hd x
  obtain ⟨n, t, hn⟩ := hk a ha
  obtain ⟨wires, stem, scope, e, scope', -, he, rfl⟩ := addNode_eq_ok hn hadd
  have hemit : x ∈ e.diagnostics ↔ ∃ c, ReflTransGen (bench g .builtin settings {}).Expands a c ∧
      (bench g .builtin settings {}).Remarks c x :=
    (Bench.kept_remarks (library_bench ..)).emit hn he x
  simp [append, hd x, hemit, or_and_right, exists_or]

/-- The node is looked at for the target: it is scheduled, or at whatever depth a step of a loop that
is, whether that loop runs or not. -/
def Target.Inspects (g : Graph) (lib : Library) (target : Target) (c : String) : Prop :=
  ∃ id s a, target.node? g lib = some id ∧ schedule g lib id = .ok s ∧ a ∈ s.order ∧
    ReflTransGen (Runs g lib) a c

/-- The diagnostics of a shader, each of them once: nodes of unknown type that a node looked at is
wired to or that a loop takes as a step, missing steps of loops, and formulas that cannot be read. -/
theorem compile_diagnostics {g : Graph} {settings : Settings} {target : Target} {shader : Shader}
    (h : compile g .builtin settings target = .ok shader) :
    shader.diagnostics.Nodup ∧
    (∀ id typeName, .unknownType id typeName ∈ shader.diagnostics ↔
      IsUnknown g .builtin id typeName ∧
        ((∃ c, target.Inspects g .builtin c ∧ Names g .builtin c id) ∨
          ∃ l, target.Emits g .builtin settings l ∧
            (Draft.bench g .builtin settings {}).Takes l id)) ∧
    (∀ l s, .missingStep l s ∈ shader.diagnostics ↔
      target.Emits g .builtin settings l ∧ (Draft.bench g .builtin settings {}).Misses l s) ∧
    ∀ id message, .invalidFormula id message ∈ shader.diagnostics ↔
      target.Emits g .builtin settings id ∧
        (Draft.bench g .builtin settings {}).Rejects id message := by
  obtain ⟨id, plan, t, draft, terminal, hid, hplan, ht, hdraft, -, rfl⟩ := compile_eq_ok h
  have hknown : Known g .builtin id := by
    obtain ⟨n, hn, ht⟩ := Option.bind_eq_some_iff.1 ht
    exact ⟨n, t, hn, ht⟩
  have hemits : ∀ c, target.Emits g .builtin settings c ↔ ∃ a ∈ plan.order,
      ReflTransGen (Draft.bench g .builtin settings {}).Expands a c := fun c ↦
    Target.exists_scheduled_iff hid hplan
  have hinspects : ∀ c, target.Inspects g .builtin c ↔ ∃ a ∈ plan.order,
      ReflTransGen (Runs g .builtin) a c := fun c ↦ Target.exists_scheduled_iff hid hplan
  have hscheduled : ∀ d, d ∈ plan.diagnostics ↔ ∃ id typeName, .unknownType id typeName = d ∧
      IsUnknown g .builtin id typeName ∧
        ∃ c, target.Inspects g .builtin c ∧ Names g .builtin c id := by
    intro d
    simp only [hinspects]
    exact mem_diagnostics_schedule hknown hplan
  have hemitted : ∀ d, d ∈ draft.diagnostics ↔ ∃ c, target.Emits g .builtin settings c ∧
      (Draft.bench g .builtin settings {}).Remarks c d := by
    intro d
    simp only [hemits]
    exact Draft.mem_diagnostics_ofOrder (placed_of_schedule hplan).known hdraft d
  refine ⟨nodup_mergeNew (schedule_reports hknown hplan).nodup _, ?_, ?_, ?_⟩
  · intro id typeName
    have hskipped : .unknownType id typeName ∈ draft.diagnostics ↔ IsUnknown g .builtin id typeName ∧
        ∃ l, target.Emits g .builtin settings l ∧
          (Draft.bench g .builtin settings {}).Takes l id := by
      rw [hemitted]
      constructor
      · intro ⟨c, hc, hd⟩
        rcases hd with ⟨s, -, hd⟩ | ⟨s, typeName', htakes, hunknown, hd⟩ | ⟨message, -, hd⟩
        · cases hd
        · cases hd
          exact ⟨hunknown, c, hc, htakes⟩
        · cases hd
      · intro ⟨hunknown, l, hl, htakes⟩
        exact ⟨l, hl, .inr (.inl ⟨id, typeName, htakes, hunknown, rfl⟩)⟩
    simp [hscheduled, hskipped, and_or_left]
  · intro l s
    simp [hscheduled, hemitted, Bench.Remarks]
  · intro id message
    simp [hscheduled, hemitted, Bench.Remarks]

def Sample.faulty : Graph where
  nodes := [
    Sample.loop "outer" ["inner", "old", "bad"], Sample.loop "inner" ["gone", "old"],
    { id := "old", typeName := "Retired" },
    { id := "bad", typeName := "Expr", params := .ofList [("expression", .string "a +")],
      inputs := [{ key := "a", type := .float, wire := some ⟨"relic", "out"⟩ }] },
    { id := "relic", typeName := "Relic" }]

theorem compile_diagnostics_faulty :
    ∃ shader, compile Sample.faulty .builtin {} (.preview "outer") = .ok shader ∧
      shader.diagnostics = [.unknownType "relic" "Relic", .missingStep "inner" "gone",
        .unknownType "old" "Retired",
        .invalidFormula "bad" "unexpected 'end of input' at column 4"] ∧
      shader.diagnostics.Nodup ∧ IsUnknown Sample.faulty .builtin "relic" "Relic" ∧
      Target.Emits Sample.faulty .builtin {} (.preview "outer") "inner" ∧
      (Draft.bench Sample.faulty .builtin {} {}).Misses "inner" "gone" ∧
      Target.Emits Sample.faulty .builtin {} (.preview "outer") "bad" ∧
      (Draft.bench Sample.faulty .builtin {} {}).Rejects "bad"
        "unexpected 'end of input' at column 4" := by
  have hcompile : (compile Sample.faulty .builtin {} (.preview "outer")).map (·.diagnostics) =
      .ok [.unknownType "relic" "Relic", .missingStep "inner" "gone", .unknownType "old" "Retired",
        .invalidFormula "bad" "unexpected 'end of input' at column 4"] := by decide +kernel
  obtain ⟨shader, hshader, hdiagnostics⟩ := exists_of_map_eq_ok hcompile
  obtain ⟨hnodup, hunknown, hmissing, hformula⟩ := compile_diagnostics hshader
  obtain ⟨hrelic, -⟩ := (hunknown "relic" "Relic").1 (by simp [hdiagnostics])
  obtain ⟨hinner, hgone⟩ := (hmissing "inner" "gone").1 (by simp [hdiagnostics])
  obtain ⟨hbad, hrejects⟩ := (hformula "bad" "unexpected 'end of input' at column 4").1
    (by simp [hdiagnostics])
  exact ⟨shader, hshader, hdiagnostics, hnodup, hrelic, hinner, hgone, hbad, hrejects⟩

end NodeShader

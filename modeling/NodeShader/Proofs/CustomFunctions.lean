import NodeShader.Proofs.Distinctness
import NodeShader.Proofs.Expression
import NodeShader.Proofs.Symbols

namespace NodeShader

open Relation Schedule Glsl

/-- The name of the function that a text defines: it stands between the type and the parameters. -/
def definedName (text : String) : String :=
  String.ofList (((text.toList.dropWhile (· != ' ')).drop 1).takeWhile (· != '('))

theorem definedName_ofList {cs : List Char} {name : String}
    (h : ((cs.dropWhile (· != ' ')).drop 1).takeWhile (· != '(') = name.toList) :
    definedName (String.ofList cs) = name := by
  rw [definedName, String.toList_ofList, h, String.ofList_toList]

theorem definedName_append {type name : String} (rest : String) (htype : ' ' ∉ type.toList)
    (hname : '(' ∉ name.toList) : definedName (type ++ " " ++ name ++ "(" ++ rest) = name := by
  have htext : (type ++ " " ++ name ++ "(" ++ rest).toList =
      type.toList ++ ' ' :: (name.toList ++ '(' :: rest.toList) := by simp
  rw [definedName, htext, (Text.upTo_mark htype _).2, List.drop_one, List.tail_cons,
    (Text.upTo_mark hname _).1, String.ofList_toList]

namespace Catalogue

theorem open_not_mem_functionName (symbol : String) : '(' ∉ (functionName symbol).toList := by
  intro hmem
  cases (isIdentifier_identifier ("cf_" ++ symbol)).word _ hmem

theorem definedName_functionText (site : Site) :
    definedName (functionText site) = functionName site.symbol := by
  have htype : ' ' ∉ (returnType site).name.toList := by cases returnType site <;> decide
  have hname : '(' ∉ (functionName site.symbol).toList := open_not_mem_functionName site.symbol
  have htext : ∃ rest, functionText site =
      (returnType site).name ++ " " ++ functionName site.symbol ++ "(" ++ rest := by
    simp only [functionText, String.append_assoc, String.append_right_inj, exists_eq']
  obtain ⟨rest, hrest⟩ := htext
  rw [hrest, definedName_append rest htype hname]

def helperTable : List (String × String) :=
  [("hash22", hash22Helper), ("gradient_noise", gradientNoiseHelper), ("fbm", fbmHelper),
    ("voronoi", voronoiHelper), ("smin", sminHelper), ("smax", smaxHelper), ("sd_box", sdBoxHelper),
    ("palette", paletteHelper), ("hsv2rgb", hsv2rgbHelper)]

set_option maxRecDepth 4000 in
theorem definedName_of_mem_helperTable : ∀ p ∈ helperTable, definedName p.2 = p.1 := by
  simp only [helperTable, List.forall_mem_cons, List.not_mem_nil, false_implies, implies_true, and_true]
  and_intros <;> exact definedName_ofList (by rfl)

theorem helpers_subset : ∀ t ∈ all, t.helpers ⊆ helperTable.map (·.2) := by
  refine forall_helpers (P := (· ⊆ helperTable.map (·.2))) (List.nil_subset _) ?_
  simp [noise, fbm, voronoi, sdBox, smoothMin, smoothMax, smoothCombination, palette, hsvToRgb, helperTable]

theorem mem_helperTable {t : NodeType} {text : String} (ht : t ∈ all) (htext : text ∈ t.helpers) :
    (definedName text, text) ∈ helperTable := by
  obtain ⟨p, hp, rfl⟩ := List.mem_map.1 (helpers_subset t ht htext)
  rw [definedName_of_mem_helperTable p hp]
  exact hp

/-- Types that need functions with one name need the same function. -/
theorem helper_inj {t t' : NodeType} {text text' : String} (ht : t ∈ all) (ht' : t' ∈ all)
    (htext : text ∈ t.helpers) (htext' : text' ∈ t'.helpers)
    (hname : definedName text = definedName text') : text = text' := by
  have hnodup : (helperTable.map (·.1)).Nodup := by decide
  have heq := List.inj_on_of_nodup_map hnodup (mem_helperTable ht htext) (mem_helperTable ht' htext') hname
  exact (Prod.mk.inj heq).2

/-- No custom function has the name of a function that a type needs. -/
theorem definedName_helper_ne {t : NodeType} {text : String} (ht : t ∈ all) (htext : text ∈ t.helpers)
    (symbol : String) : definedName text ≠ functionName symbol := by
  have hheads : ∀ p ∈ helperTable, p.1.toList.head? ≠ some 'c' := by decide
  obtain ⟨cs, hcs⟩ := toList_functionName symbol
  intro hname
  apply hheads _ (mem_helperTable ht htext)
  rw [hname, hcs, List.head?_cons]

def customText (n : Node) (symbol : String) : String :=
  functionText { n.site customFunction "" .empty with symbol := symbol }

theorem mem_supplies {t : NodeType} {n : Node} {symbol text : String} (ht : t ∈ all)
    (h : text ∈ t.supplies n symbol) :
    text ∈ t.helpers ∨ t = customFunction ∧ text = customText n symbol := by
  rcases List.mem_append.1 h with h | h
  · exact .inl h
  · rcases recipe_or_of_mem t ht with ⟨r, hr⟩ | rfl | rfl | rfl
    · rw [hr, (Recipe.emit_plain _ _).1] at h
      cases h
    · exact .inr ⟨rfl, List.mem_singleton.1 h⟩
    · rw [emit_formula, helpers_formulaEmission] at h
      cases h
    · cases h

end Catalogue

namespace Bench

open Catalogue

variable {b : Bench} {id c : String} {n : Node} {t : NodeType} {scope scope' : Scope} {s : Statement}

variable (b) in
def Calls (scope : Scope) (c : String) (s : Statement) : Prop :=
  ∀ n, Present b.graph b.library c n customFunction → ∃ symbol args,
    scope.symbols.get? c = some symbol ∧ s.value = functionName symbol ++ "(" ++ args ++ ")"

theorem Calls.extend (h : b.Calls scope c s) (hscope : scope.Remembers scope') :
    b.Calls scope' c s := by
  intro n hn
  obtain ⟨symbol, args, hsymbol, hs⟩ := h n hn
  exact ⟨symbol, args, hscope c symbol hsymbol, hs⟩

theorem calls_of_ne (hn : Present b.graph b.library c n t) (ht : t ≠ customFunction) (scope : Scope)
    (s : Statement) : b.Calls scope c s := fun _ hm ↦ absurd (hn.unique hm).2 ht

theorem ne_customFunction_of_loop (ht : t.role = .loop) : t ≠ customFunction := by
  rintro rfl
  cases ht

variable (b) in
structure Called (before : Scope) (owners : List String) (statements : List Statement)
    (after : Scope) : Prop where
  remembers : before.Remembers after
  calls : List.Forall₂ (b.Calls after) owners statements

namespace Called

variable {before middle after after' : Scope} {owners owners' : List String}
  {statements statements' : List Statement}

theorem refl (scope : Scope) : b.Called scope [] [] scope := ⟨fun _ _ ↦ id, .nil⟩

theorem extend (h : b.Called before owners statements after) (ha : after.Remembers after') :
    b.Called before owners statements after' :=
  ⟨fun id name hname ↦ ha id name (h.remembers id name hname), h.calls.imp fun _ _ hc ↦ hc.extend ha⟩

theorem trans (h : b.Called before owners statements middle)
    (h' : b.Called middle owners' statements' after) :
    b.Called before (owners ++ owners') (statements ++ statements') after :=
  ⟨(h.extend h'.remembers).remembers, List.rel_append (h.extend h'.remembers).calls h'.calls⟩

/-- The result of a loop calls nothing. -/
theorem snoc (h : b.Called before owners statements after) (hn : Present b.graph b.library id n t)
    (ht : t.role = .loop) (s : Statement) :
    b.Called before (owners ++ [id]) (statements ++ [s]) after := by
  have hs := calls_of_ne hn (ne_customFunction_of_loop ht) after s
  exact ⟨h.remembers, List.rel_append h.calls (.cons hs .nil)⟩

end Called

theorem called_of_not_loop {keys : List String} (hn : Present b.graph b.library id n t)
    (ht : HasKeys t keys) (scope : Scope) (stem : String) (wires : Dict Term) :
    b.Called scope (ownDeclarers (n, t))
      (t.emission { n.site t stem wires with symbol := (scope.symbol id).1 }).statements
      (scope.symbol id).2 := by
  refine ⟨scope.remembers_symbol id, ?_⟩
  by_cases hcustom : t = customFunction
  · subst hcustom
    rw [ownDeclarers_eq hn hasKeys_customFunction]
    refine .cons (fun _ _ ↦ ⟨_, _, scope.get?_symbol id, rfl⟩) .nil
  · have hnames := ht.names { n.site t stem wires with symbol := (scope.symbol id).1 }
    have hlength := congrArg List.length hnames
    rw [ownDeclarers_eq hn ht, List.forall₂_iff_zip]
    refine ⟨by simpa using hlength.symm, fun {c s} hc ↦ ?_⟩
    obtain ⟨key, -, rfl⟩ := List.mem_map.1 (List.of_mem_zip hc).1
    exact calls_of_ne hn hcustom _ s

theorem ownDeclarers_of_loop (hb : b.IsKeyed) (hn : Present b.graph b.library id n t)
    (ht : t.role = .loop) : ownDeclarers (n, t) = [id] := by
  obtain ⟨keys, hkeys⟩ := hb _ t hn.type
  obtain rfl := hkeys.result ht
  exact ownDeclarers_eq hn hkeys

theorem kept_called (hb : b.IsKeyed) : b.Kept
    (fun room id scope e scope' ↦ b.Called scope (b.declarers room id) e.statements scope')
    fun room done scope turn ↦ b.Called scope (done.flatMap fun s ↦ b.declarers room s.2)
      turn.emission.statements turn.scope where
  plain room stem wires scope hn ht := by
    obtain ⟨keys, hkeys⟩ := hb _ _ hn.type
    rw [declarers_of_stepPlan hn (stepPlan_of_not_loop hn ht)]
    exact called_of_not_loop hn hkeys scope stem wires
  gap room stem wires scope hn ht hm := by
    rw [declarers_of_stepPlan hn (stepPlan_of_gap hn hm), ownDeclarers_of_loop hb hn ht]
    exact (Called.refl scope).snoc hn ht _
  idle {id n t} room stem wires scope hn ht hm hs := by
    obtain ⟨keys, hkeys⟩ := hb _ _ hn.type
    obtain rfl := hkeys.result ht
    have hlength := congrArg List.length (hkeys.names (n.site t stem wires))
    obtain ⟨s, hs'⟩ := List.length_eq_one_iff.1 ((List.length_map _).symm.trans hlength)
    rw [declarers_of_stepPlan hn (stepPlan_of_idle hn hs), ownDeclarers_of_loop hb hn ht, hs']
    exact (Called.refl scope).snoc hn ht s
  run stem wires hn ht hm hturns hrun := by
    rw [declarers_of_run hn ht hm, ownDeclarers_of_loop hb hn ht]
    exact hrun.snoc hn ht _
  start room scope carry := .refl scope
  skip k hc hm hturn := by
    rw [List.flatMap_append, List.flatMap_singleton,
      declarers_of_unknown (not_known_of_find? hc hm), List.append_nil]
    exact hturn
  step k type hm hstem hturn he := by
    rw [List.flatMap_append, List.flatMap_singleton]
    exact ((hturn.extend (Scope.remembers_of_reserve hstem)).trans he).extend
      (Scope.remembers_record _ _)

end Bench

namespace Draft

open Catalogue

variable {g : Graph} {settings : Settings} {order : List String} {draft : Draft}
  {p q : Node × NodeType}

def functionName (d : Draft) (c : String) : String := Catalogue.functionName (d.scope.symbol c).1

def functionText (d : Draft) (n : Node) : String := customText n (d.scope.symbol n.id).1

theorem definedName_functionText (d : Draft) (n : Node) :
    definedName (d.functionText n) = d.functionName n.id :=
  Catalogue.definedName_functionText _

theorem present_of_mem_instances (hp : p ∈ instances g .builtin settings order) :
    Present g .builtin p.1.id p.1 p.2 := by
  obtain ⟨a, -, hp⟩ := List.mem_flatMap.1 hp
  exact Bench.present_of_mem_instances hp

theorem supplies_eq (d : Draft) (ht : p.2 = customFunction) :
    p.2.supplies p.1 (d.scope.symbol p.1.id).1 = [d.functionText p.1] := by
  rw [ht]
  rfl

/-- The declarations of a draft belong to its owners, and those of custom nodes call the functions with
the symbols that the nodes have in the end. -/
theorem called_of_ofOrder (h : ofOrder g .builtin settings order = .ok draft) :
    (bench g .builtin settings {}).Called {} (owners g .builtin settings order) draft.blocks.flatten
      draft.scope := by
  refine ofOrder_progress (fun done d ↦ (bench g .builtin settings {}).Called {}
    (owners g .builtin settings done) d.blocks.flatten d.scope) h (.refl {}) ?_
  intro done d d' a ha hadd hdone
  rw [owners_snoc d]
  rcases addNode_cases hadd with ⟨hunknown, rfl⟩ |
    ⟨n, t, wires, stem, scope, e, scope', hn, -, hstem, he, rfl⟩
  · rw [Bench.declarers_of_unknown hunknown, List.append_nil]
    exact hdone
  · have hb : (bench g .builtin settings d).IsKeyed := fun _ _ ↦ Library.builtin_hasKeys
    have hnode := (Bench.kept_called hb).emit hn he
    rw [flatten_blocks_append]
    have hboth := (hdone.extend (Scope.remembers_of_reserve hstem)).trans ⟨hnode.remembers, hnode.calls⟩
    exact hboth.extend (Scope.remembers_record _ _)

structure Stocked (g : Graph) (settings : Settings) (order : List String) (draft : Draft) : Prop where
  blocks : draft.helpers.blocks = distinct ((instances g .builtin settings order).flatMap
    fun p ↦ p.2.supplies p.1 (draft.scope.symbol p.1.id).1)
  settled : ∀ p ∈ instances g .builtin settings order,
    (∃ name, draft.scope.symbols.get? p.1.id = some name) ∨ ∀ symbol, p.2.supplies p.1 symbol = []
  apart : draft.scope.Apart

theorem stocked_of_ofOrder (hk : ∀ id ∈ order, Known g .builtin id)
    (h : ofOrder g .builtin settings order = .ok draft) : Stocked g settings order draft := by
  obtain ⟨texts, hblocks, hsupplied⟩ := exists_supplied hk h
  exact ⟨hsupplied.texts_eq ▸ hblocks, hsupplied.settled, apart_of_ofOrder h⟩

namespace Stocked

/-- A custom node with an instance has its symbol in the end. -/
theorem get?_symbols (h : Stocked g settings order draft) (hp : p ∈ instances g .builtin settings order)
    (ht : p.2 = customFunction) :
    draft.scope.symbols.get? p.1.id = some (draft.scope.symbol p.1.id).1 := by
  rcases h.settled p hp with ⟨name, hname⟩ | hnone
  · rw [Scope.symbol_of_get? hname]
    exact hname
  · rw [ht] at hnone
    cases hnone ""

theorem isSymbol (h : Stocked g settings order draft) (hp : p ∈ instances g .builtin settings order)
    (ht : p.2 = customFunction) : IsSymbol (draft.scope.symbol p.1.id).1 :=
  h.apart.isSymbol _ _ (h.get?_symbols hp ht)

/-- A function of the draft belongs to a type, or it is that of a custom node. -/
theorem mem_blocks {text : String} (h : Stocked g settings order draft)
    (htext : text ∈ draft.helpers.blocks) :
    (∃ t ∈ Catalogue.all, text ∈ t.helpers) ∨
      ∃ p ∈ instances g .builtin settings order, p.2 = customFunction ∧
        text = draft.functionText p.1 := by
  rw [h.blocks, mem_distinct] at htext
  obtain ⟨p, hp, htext⟩ := List.mem_flatMap.1 htext
  have ht := Library.mem_of_find?_ofList (present_of_mem_instances hp).type
  rcases mem_supplies ht htext with htype | ⟨hcustom, rfl⟩
  · exact .inl ⟨p.2, ht, htype⟩
  · exact .inr ⟨p, hp, hcustom, rfl⟩

theorem functionText_mem (h : Stocked g settings order draft)
    (hp : p ∈ instances g .builtin settings order) (ht : p.2 = customFunction) :
    draft.functionText p.1 ∈ draft.helpers.blocks := by
  rw [h.blocks, mem_distinct]
  exact List.mem_flatMap.2 ⟨p, hp, by simp [supplies_eq draft ht]⟩

theorem functionName_inj (h : Stocked g settings order draft)
    (hp : p ∈ instances g .builtin settings order) (ht : p.2 = customFunction)
    (hq : q ∈ instances g .builtin settings order) (ht' : q.2 = customFunction)
    (hname : draft.functionName p.1.id = draft.functionName q.1.id) : p.1.id = q.1.id := by
  have heq := Catalogue.functionName_inj (h.isSymbol hp ht) (h.isSymbol hq ht') hname
  exact h.apart.injective _ _ _ (h.get?_symbols hp ht) (heq ▸ h.get?_symbols hq ht')

/-- The draft has no two functions with one name. -/
theorem eq_of_definedName {text text' : String} (h : Stocked g settings order draft)
    (htext : text ∈ draft.helpers.blocks) (htext' : text' ∈ draft.helpers.blocks)
    (hname : definedName text = definedName text') : text = text' := by
  rcases h.mem_blocks htext with ⟨t, ht, htype⟩ | ⟨p, hp, ht, rfl⟩
  · rcases h.mem_blocks htext' with ⟨t', ht', htype'⟩ | ⟨q, -, -, rfl⟩
    · exact helper_inj ht ht' htype htype' hname
    · exact absurd (hname.trans (definedName_functionText draft q.1)) (definedName_helper_ne ht htype _)
  · rcases h.mem_blocks htext' with ⟨t', ht', htype'⟩ | ⟨q, hq, ht', rfl⟩
    · exact absurd (hname.symm.trans (definedName_functionText draft p.1))
        (definedName_helper_ne ht' htype' _)
    · rw [definedName_functionText, definedName_functionText] at hname
      have hpq := h.functionName_inj hp ht hq ht' hname
      have hnode := ((hpq ▸ present_of_mem_instances hp).unique (present_of_mem_instances hq)).1
      rw [hnode]

theorem nodup_definedName (h : Stocked g settings order draft) :
    (draft.helpers.blocks.map definedName).Nodup := by
  have hnodup : draft.helpers.blocks.Nodup := by
    rw [h.blocks]
    exact nodup_distinct _
  exact hnodup.map_on fun _ htext _ htext' ↦ h.eq_of_definedName htext htext'

theorem filter_blocks (h : Stocked g settings order draft)
    (hp : p ∈ instances g .builtin settings order) (ht : p.2 = customFunction) :
    draft.helpers.blocks.filter (definedName · = draft.functionName p.1.id) =
      [draft.functionText p.1] := by
  have hmem := h.functionText_mem hp ht
  have hnodup := h.nodup_definedName.of_map.filter (definedName · = draft.functionName p.1.id)
  refine List.perm_singleton.1 ((List.perm_ext_iff_of_nodup hnodup (List.nodup_singleton _)).2 ?_)
  intro text
  rw [List.mem_filter, List.mem_singleton, decide_eq_true_eq, ← definedName_functionText]
  constructor
  · intro ⟨htext, hname⟩
    exact h.eq_of_definedName htext hmem hname
  · rintro rfl
    exact ⟨hmem, rfl⟩

end Stocked

end Draft

open Catalogue in
/-- Each custom node, however often it is emitted, adds one function to the shader, which all its
declarations call; no two functions of the shader have one name, and none of a custom node has that of
a function that a type needs. -/
theorem compile_customFunctions {g : Graph} {settings : Settings} {target : Target} {shader : Shader}
    (h : compile g .builtin settings target = .ok shader) :
    ∃ id plan draft terminal, target.node? g .builtin = some id ∧ schedule g .builtin id = .ok plan ∧
      Draft.ofOrder g .builtin settings plan.order = .ok draft ∧
      shader.source =
        assemble settings.prologue draft.helpers (draft.blocks.map blockText) terminal ∧
      (draft.helpers.blocks.map definedName).Nodup ∧
      draft.helpers.blocks = distinct ((Draft.instances g .builtin settings plan.order).flatMap
        fun p ↦ p.2.supplies p.1 (draft.scope.symbol p.1.id).1) ∧
      (Draft.owners g .builtin settings plan.order).length = draft.blocks.flatten.length ∧
      (∀ c n, target.Emits g .builtin settings c → Present g .builtin c n customFunction →
        (∃ symbol, draft.functionName c = "cf_" ++ symbol) ∧
        (∀ p ∈ Draft.instances g .builtin settings plan.order, p.1.id = c →
          p.2.supplies p.1 (draft.scope.symbol p.1.id).1 = [draft.functionText n]) ∧
        draft.helpers.blocks.filter (definedName · = draft.functionName c) = [draft.functionText n] ∧
        (∀ s, (c, s) ∈ (Draft.owners g .builtin settings plan.order).zip draft.blocks.flatten →
          ∃ args, s.value = draft.functionName c ++ "(" ++ args ++ ")") ∧
        ∀ c' n', target.Emits g .builtin settings c' → Present g .builtin c' n' customFunction →
          c ≠ c' → draft.functionName c ≠ draft.functionName c') ∧
      ∀ c, ∀ t ∈ Catalogue.all, ∀ text ∈ t.helpers, definedName text ≠ draft.functionName c := by
  obtain ⟨id, plan, t, draft, terminal, hid, hplan, -, hdraft, -, rfl⟩ := compile_eq_ok h
  have hknown := (placed_of_schedule hplan).known
  have hstocked := Draft.stocked_of_ofOrder hknown hdraft
  have hcalled := (Draft.called_of_ofOrder hdraft).calls
  have hinstance : ∀ c n, target.Emits g .builtin settings c → Present g .builtin c n customFunction →
      ∃ p ∈ Draft.instances g .builtin settings plan.order,
        p.1.id = c ∧ p.1 = n ∧ p.2 = customFunction := by
    intro c n hc hn
    obtain ⟨p, hp, rfl⟩ := (Draft.exists_instance_iff hknown hdraft c).2
      ((Target.exists_scheduled_iff hid hplan).1 hc)
    exact ⟨p, hp, rfl, (Draft.present_of_mem_instances hp).unique hn⟩
  refine ⟨id, plan, draft, terminal, hid, hplan, hdraft, rfl, hstocked.nodup_definedName,
    hstocked.blocks, hcalled.length_eq, ?_, ?_⟩
  · intro c n hc hn
    obtain ⟨p, hp, rfl, rfl, ht⟩ := hinstance c n hc hn
    refine ⟨⟨_, functionName_of_isSymbol (hstocked.isSymbol hp ht)⟩, ?_,
      hstocked.filter_blocks hp ht, ?_, ?_⟩
    · intro q hq hqp
      obtain ⟨hnode, htype⟩ := (hqp ▸ Draft.present_of_mem_instances hq).unique hn
      rw [← hnode]
      exact draft.supplies_eq htype
    · intro s hs
      obtain ⟨symbol, args, hsymbol, hvalue⟩ := (List.forall₂_iff_zip.1 hcalled).2 hs p.1 hn
      refine ⟨args, ?_⟩
      rw [hvalue, Draft.functionName, Scope.symbol_of_get? hsymbol]
    · intro c' n' hc' hn' hne hname
      obtain ⟨q, hq, rfl, -, ht'⟩ := hinstance c' n' hc' hn'
      exact hne (hstocked.functionName_inj hp ht hq ht' hname)
  · intro c t ht text htext
    exact definedName_helper_ne ht htext _

def Sample.custom (id body : String) : Node where
  id := id
  typeName := "CustomFunction"
  params := .ofList [("body", .string body)]

def Sample.lookalike : Graph where
  nodes := [Sample.sum "sum" "f-1" "loop", Sample.loop "loop" ["f-1", "f_1", "f-1"],
    Sample.custom "f-1" "a", Sample.custom "f_1" "b"]

def Sample.brief : Settings := { maxLoopIterations := 2 }

open Catalogue in
theorem compile_customFunctions_lookalike :
    ∃ shader plan draft, compile Sample.lookalike .builtin Sample.brief (.preview "sum") = .ok shader ∧
      schedule Sample.lookalike .builtin "sum" = .ok plan ∧ plan.order = ["f-1", "loop", "sum"] ∧
      Draft.ofOrder Sample.lookalike .builtin Sample.brief plan.order = .ok draft ∧
      draft.functionName "f-1" = "cf_f_1" ∧ draft.functionName "f_1" = "cf_f_1_1" ∧
      draft.functionName "f-1" ≠ draft.functionName "f_1" ∧
      (draft.helpers.blocks.filter (definedName · = draft.functionName "f-1")).length = 1 ∧
      (draft.helpers.blocks.filter (definedName · = draft.functionName "f_1")).length = 1 ∧
      (Draft.owners Sample.lookalike .builtin Sample.brief plan.order).count "f-1" = 5 ∧
      ∀ s, ("f-1", s) ∈ (Draft.owners Sample.lookalike .builtin Sample.brief plan.order).zip
        draft.blocks.flatten → ∃ args, s.value = draft.functionName "f-1" ++ "(" ++ args ++ ")" := by
  have hrun : (compile Sample.lookalike .builtin Sample.brief (.preview "sum")).isOk ∧
      (schedule Sample.lookalike .builtin "sum").map (·.order) = .ok ["f-1", "loop", "sum"] ∧
      (Draft.owners Sample.lookalike .builtin Sample.brief ["f-1", "loop", "sum"]).count "f-1" = 5 ∧
      (Draft.ofOrder Sample.lookalike .builtin Sample.brief ["f-1", "loop", "sum"]).map
        (fun d ↦ (d.functionName "f-1", d.functionName "f_1")) = .ok ("cf_f_1", "cf_f_1_1") := by
    decide +kernel
  obtain ⟨hok, horder, hcount, hnames⟩ := hrun
  obtain ⟨shader, hs⟩ := exists_of_isOk hok
  obtain ⟨id, plan, draft, -, hid, hplan, hdraft, -, -, -, -, hcustom, -⟩ := compile_customFunctions hs
  obtain rfl := Option.some.inj hid
  have hplanned := of_map_eq_ok horder hplan
  rw [← hplanned] at hcount hnames
  have hboth := of_map_eq_ok hnames hdraft
  obtain ⟨hname, hname'⟩ := Prod.mk.inj hboth
  have htype := find?_builtin customFunction_mem
  have htype' := find?_builtin loop_mem
  have hn : Present Sample.lookalike .builtin "f-1" (Sample.custom "f-1" "a") customFunction :=
    ⟨rfl, htype⟩
  have hn' : Present Sample.lookalike .builtin "f_1" (Sample.custom "f_1" "b") customFunction :=
    ⟨rfl, htype⟩
  have hloop : Present Sample.lookalike .builtin "loop" (Sample.loop "loop" ["f-1", "f_1", "f-1"])
      Catalogue.loop := ⟨rfl, htype'⟩
  have hstep : (Draft.bench Sample.lookalike .builtin Sample.brief {}).Expands "loop" "f_1" :=
    ⟨_, _, hloop, rfl, by decide, by decide, by decide, _, _, hn'⟩
  have hemits : Target.Emits Sample.lookalike .builtin Sample.brief (.preview "sum") "f-1" :=
    ⟨"sum", plan, "f-1", rfl, hplan, by simp [hplanned], .refl⟩
  have hemits' : Target.Emits Sample.lookalike .builtin Sample.brief (.preview "sum") "f_1" :=
    ⟨"sum", plan, "loop", rfl, hplan, by simp [hplanned], .single hstep⟩
  obtain ⟨-, -, hone, hcalls, hapart⟩ := hcustom "f-1" _ hemits hn
  obtain ⟨-, -, hone', -⟩ := hcustom "f_1" _ hemits' hn'
  exact ⟨shader, plan, draft, hs, hplan, hplanned, hdraft, hname, hname',
    hapart "f_1" _ hemits' hn' (by decide), congrArg List.length hone, congrArg List.length hone', hcount,
    hcalls⟩

end NodeShader

import NodeShader.Proofs.CustomFunctions

namespace NodeShader

open Schedule Glsl

namespace Glsl

variable {w xs ys : List Char} {stem : String}

/-- Where a text ends in an underscore, its first word does not depend on what follows. -/
theorem word_prefix_iff (hw : '_' ∉ w) (hlast : xs.getLast? = some '_') (hxs : xs <+: ys) :
    w ++ ['_'] <+: ys ↔ w ++ ['_'] <+: xs := by
  constructor
  · intro hys
    rcases List.prefix_or_prefix_of_prefix hys hxs with h | h
    · exact h
    · rcases List.prefix_concat_iff.1 h with rfl | h
      · exact List.prefix_rfl
      · exact absurd (h.subset (List.mem_of_getLast? hlast)) hw
  · intro h
    exact h.trans hxs

theorem prefix_variableName (stem key : String) : stemPart stem <+: (variableName stem key).toList :=
  ⟨_, (toList_variableName stem key).symm⟩

/-- The stems of the steps of a loop go on from that of the loop. -/
theorem stemPart_step (stem : String) (k : Nat) (c : String) :
    ∃ cs, stemPart (identifier (stem ++ "_i" ++ toString k ++ "_" ++ c)) = stemPart stem ++ 'i' :: cs := by
  let rest := toString k ++ "_" ++ c
  have hname : identifier (stem ++ "_i" ++ toString k ++ "_" ++ c) = variableName stem ("i" ++ rest) := by
    have htext : stem ++ "_i" ++ toString k ++ "_" ++ c = stem ++ "_" ++ ("i" ++ rest) := by
      have hmark : "_i" = "_" ++ "i" := rfl
      simp only [rest, hmark, String.append_assoc]
    rw [htext, variableName]
  have hletter : ∀ cs : List Char, squeeze ('i' :: cs) = 'i' :: squeeze cs := fun cs ↦ by simp [squeeze]
  have hkey : squeeze ((sanitize ("i" ++ rest)).dropWhile (· == '_')) = 'i' :: squeeze (sanitize rest) := by
    have hsanitize : sanitize ("i" ++ rest) = 'i' :: sanitize rest := by simp [sanitize, Text.isWordChar]
    rw [hsanitize, List.dropWhile_cons_of_neg (by decide), hletter]
  rw [hname, (isIdentifier_variableName _ _).stemPart_eq, toList_variableName, hkey, List.append_assoc,
    squeeze_append (by simp), List.cons_append, hletter, stemPart, squeeze_of_isChain (isChain_squeeze _)]
  exact ⟨_, rfl⟩

theorem stemPart_eq_word (hw : '_' ∉ w) (h : stemPart stem <+: w ++ ['_']) :
    stemPart stem = w ++ ['_'] := by
  rcases List.prefix_concat_iff.1 h with h | h
  · exact h
  · exact absurd (h.subset (List.mem_of_getLast? (getLast?_stemPart stem))) hw

end Glsl

theorem Scope.stemPart_prefix_of_reserve {s scope : Scope} {base stem : String} {keys : List String}
    (h : s.reserve base keys = (stem, scope)) : stemPart (identifier base) <+: stemPart stem := by
  cases h
  obtain ⟨m, -, hm, -⟩ := exists_first_candidate (s.isFree keys) (identifier base)
    (s.stems.length + keys.length * s.declared.length) 0
  rw [hm]
  cases m with
  | zero => exact List.prefix_rfl
  | succ m =>
    rw [stemPart_candidate, List.append_assoc]
    exact List.prefix_append _ _

/-- A variable of an instance with the given type and stem, or of one of its steps: these have longer
stems. -/
def Stems (t : NodeType) (stem name : String) : Prop :=
  ∃ u ∈ Catalogue.all, ∃ stem' key, Catalogue.Covers u key ∧ name = variableName stem' key ∧
    stemPart stem <+: stemPart stem' ∧ (stemPart stem' = stemPart stem → u = t)

namespace Stems

open Catalogue

variable {t : NodeType} {base stem name key : String}

theorem own (ht : t ∈ all) (hkey : Covers t key) (stem : String) : Stems t stem (variableName stem key) :=
  ⟨t, ht, stem, key, hkey, rfl, List.prefix_rfl, fun _ ↦ rfl⟩

theorem shorten (h : Stems t stem name) (hbase : stemPart base <+: stemPart stem) :
    Stems t base name := by
  obtain ⟨u, hu, stem', key, hkey, hname, hstart, hown⟩ := h
  refine ⟨u, hu, stem', key, hkey, hname, hbase.trans hstart, fun heq ↦ hown ?_⟩
  rw [heq] at hstart ⊢
  exact hbase.eq_of_length_le hstart.length_le

/-- A variable of a step belongs to a loop of any type. -/
theorem of_step {u : NodeType} {k : Nat} {c : String} (h : Stems u stem name)
    (hstem : stemPart (identifier (base ++ "_i" ++ toString k ++ "_" ++ c)) <+: stemPart stem)
    (t : NodeType) : Stems t base name := by
  obtain ⟨v, hv, stem', key, hkey, hname, hstart, -⟩ := h
  obtain ⟨cs, hcs⟩ := stemPart_step base k c
  have hlonger : stemPart base ++ 'i' :: cs <+: stemPart stem' := hcs ▸ hstem.trans hstart
  refine ⟨v, hv, stem', key, hkey, hname, (List.prefix_append _ _).trans hlonger, fun heq ↦ ?_⟩
  have hlength := hlonger.length_le
  rw [heq, List.length_append, List.length_cons] at hlength
  omega

theorem exists_underscore (h : Stems t stem name) : '_' ∈ name.toList := by
  obtain ⟨-, -, stem', key, -, rfl, -⟩ := h
  exact (prefix_variableName stem' key).subset (List.mem_of_getLast? (getLast?_stemPart stem'))

/-- The variables begin with the first word of the stem. -/
theorem word_prefix_iff {w : List Char} (h : Stems t stem name) (hw : '_' ∉ w) :
    w ++ ['_'] <+: name.toList ↔ w ++ ['_'] <+: stemPart stem := by
  obtain ⟨-, -, stem', key, -, rfl, hstart, -⟩ := h
  exact Glsl.word_prefix_iff hw (getLast?_stemPart stem) (hstart.trans (prefix_variableName stem' key))

/-- A variable with a stem of one word is one of the instance itself. -/
theorem of_eq_variableName {w : String} (h : Stems t stem name) (hkey : IsPlainKey key)
    (hw : IsPlainKey w ∧ stemPart w = w.toList ++ ['_']) (hname : name = variableName w key) :
    stemPart stem = w.toList ++ ['_'] ∧ Covers t key := by
  obtain ⟨u, hu, stem', key', hcovers, rfl, hstart, hown⟩ := h
  obtain ⟨hstem, rfl⟩ := variableName_inj hcovers.1 hkey hname
  rw [hstem, hw.2] at hstart hown
  have hword := stemPart_eq_word hw.1.underscore_not_mem hstart
  exact ⟨hword, hown hword.symm ▸ hcovers⟩

theorem ne_uvInput (h : Stems t stem name) : name ≠ uvInput := by
  rintro rfl
  exact absurd h.exists_underscore (by decide)

/-- No variable has the name of a function that a type needs: most of these names have no underscore,
and the others end in what no variable ends in. -/
theorem ne_helper {u : NodeType} {text : String} (h : Stems t stem name) (hu : u ∈ all)
    (htext : text ∈ u.helpers) : name ≠ definedName text := by
  have hnames : ∀ p ∈ helperTable, '_' ∉ p.1.toList ∨
      ∃ w ∈ [("gradient", "noise"), ("sd", "box")], p.1 = variableName w.1 w.2 := by decide
  have hkeys : ∀ u ∈ all, ¬ Covers u "noise" ∧ ¬ Covers u "box" := by decide +kernel
  intro hname
  rcases hnames _ (mem_helperTable hu htext) with hnone | ⟨w, hw, heq⟩
  · exact hnone (hname ▸ h.exists_underscore)
  · obtain ⟨v, hv, stem', key, hcovers, rfl, -⟩ := h
    have hplain : IsPlainKey w.2 ∧ (w.2 = "noise" ∨ w.2 = "box") := by
      clear hname heq
      revert w
      decide
    obtain ⟨-, rfl⟩ := variableName_inj hcovers.1 hplain.1 (hname.trans heq)
    rcases hplain.2 with hkey | hkey
    · exact (hkeys v hv).1 (hkey ▸ hcovers)
    · exact (hkeys v hv).2 (hkey ▸ hcovers)

/-- An input of the shader is a variable only of the type with an output of that name. -/
theorem of_input (h : Stems t stem name) (ht : t ∈ all)
    (hname : name ∈ [uvInput, timeInput, resolutionInput]) :
    stemPart stem = ['u', '_'] ∧
      (t.name = "Time" ∧ name = timeInput ∨ t.name = "Resolution" ∧ name = resolutionInput) := by
  have hkeys : ∀ u ∈ all, (Covers u "time" → u.name = "Time") ∧
      (Covers u "resolution" → u.name = "Resolution") := by decide +kernel
  have hword : IsPlainKey "u" ∧ stemPart "u" = ['u', '_'] := by decide
  simp only [List.mem_cons, List.not_mem_nil, or_false] at hname
  rcases hname with huv | htime | hresolution
  · exact absurd huv h.ne_uvInput
  · have hkey : IsPlainKey "time" := by decide
    obtain ⟨hstem, hcovers⟩ := h.of_eq_variableName hkey hword htime
    exact ⟨hstem, .inl ⟨(hkeys t ht).1 hcovers, htime⟩⟩
  · have hkey : IsPlainKey "resolution" := by decide
    obtain ⟨hstem, hcovers⟩ := h.of_eq_variableName hkey hword hresolution
    exact ⟨hstem, .inr ⟨(hkeys t ht).2 hcovers, hresolution⟩⟩

theorem emission (ht : t ∈ all) (site : Site) :
    ∀ s ∈ (t.emission site).statements, Stems t site.stem s.name := by
  obtain ⟨keys, hkeys⟩ := hasKeys_of_mem t ht
  intro s hs
  have hname : s.name ∈ (t.emission site).statements.map (·.name) := List.mem_map_of_mem hs
  rw [hkeys.names] at hname
  obtain ⟨key, hkey, hname⟩ := List.mem_map.1 hname
  rw [← hname]
  exact own ht (hkeys.covers key hkey) site.stem

theorem result (ht : t ∈ all) (hloop : t.role = .loop) (stem : String) :
    Stems t stem (variableName stem resultKey) := by
  obtain ⟨keys, hkeys⟩ := hasKeys_of_mem t ht
  obtain rfl := hkeys.result hloop
  exact own ht (hkeys.covers resultKey List.mem_cons_self) stem

end Stems

theorem Bench.inherits_stems {b : Bench} (hb : b.library = .builtin) : b.Inherits
    (fun _ _ t stem _ _ e _ ↦ ∀ s ∈ e.statements, Stems t stem s.name)
    fun _ _ stem _ _ _ turn ↦ ∀ s ∈ turn.emission.statements, ∀ t, Stems t stem s.name where
  plain _ _ _ _ hn _ := Stems.emission (mem_all hb hn) _
  gap _ stem _ _ hn ht _ s hs := by
    obtain rfl := List.mem_singleton.1 hs
    exact Stems.result (mem_all hb hn) ht stem
  idle _ _ _ _ hn _ _ _ := Stems.emission (mem_all hb hn) _
  run {n t room stem wires scope turn} hn ht _ _ hrun s hs := by
    rcases List.mem_append.1 hs with hs | hs
    · exact hrun s hs t
    · obtain rfl := List.mem_singleton.1 hs
      exact Stems.result (mem_all hb hn) ht stem
  start _ _ _ _ _ := nofun
  skip _ _ _ hturn := hturn
  step k hm _ hstem hturn he := by
    intro s hs
    rcases List.mem_append.1 hs with hs | hs
    · exact hturn s hs
    · exact (he s hs).of_step (Scope.stemPart_prefix_of_reserve hstem)

namespace Draft

open Catalogue

variable {g : Graph} {settings : Settings} {order : List String} {c : String} {block : List Statement}

theorem Writes.stems (h : Writes g .builtin settings order c block) :
    ∃ n t, Present g .builtin c n t ∧ ∀ s ∈ block, Stems t (identifier c) s.name := by
  obtain ⟨done, before, n, t, wires, stem, scope, e, scope', -, -, hn, -, hstem, he, rfl⟩ := h
  refine ⟨n, t, hn, fun s hs ↦ ?_⟩
  have hs := (Bench.inherits_stems (library_bench ..)).emit hn.self he s hs
  exact hs.shorten (Scope.stemPart_prefix_of_reserve hstem)

/-- A variable of this name hides something that the shader refers to: an input, what the language
reserves, or a function. -/
def Captures (d : Draft) (name : String) : Prop :=
  name ∈ [uvInput, timeInput, resolutionInput] ∨ "gl_".toList <+: name.toList ∨
    name ∈ d.helpers.blocks.map definedName

end Draft

open Catalogue in
/-- What the variables of a scheduled node hide. Inputs are hidden by nodes that give their value and
are called `u`; what the language reserves by nodes whose ids begin with the word `gl`; and the
functions of custom nodes, but no others, by nodes whose ids begin with the word `cf`. -/
theorem compile_captures {g : Graph} {settings : Settings} {target : Target} {shader : Shader}
    (h : compile g .builtin settings target = .ok shader) :
    ∃ id plan draft terminal, target.node? g .builtin = some id ∧ schedule g .builtin id = .ok plan ∧
      Draft.ofOrder g .builtin settings plan.order = .ok draft ∧
      shader.source =
        assemble settings.prologue draft.helpers (draft.blocks.map blockText) terminal ∧
      plan.order.length = draft.blocks.length ∧
      ∀ c block, (c, block) ∈ plan.order.zip draft.blocks → ∃ n t, Present g .builtin c n t ∧
        ∀ s ∈ block, draft.Captures s.name ↔
          stemPart (identifier c) = "u_".toList ∧ (t.name = "Time" ∧ s.name = timeInput ∨
            t.name = "Resolution" ∧ s.name = resolutionInput) ∨
          "gl_".toList <+: stemPart (identifier c) ∨
          "cf_".toList <+: stemPart (identifier c) ∧
            ∃ p ∈ Draft.instances g .builtin settings plan.order, p.2 = customFunction ∧
              s.name = draft.functionName p.1.id := by
  obtain ⟨id, plan, t, draft, terminal, hid, hplan, -, hdraft, -, rfl⟩ := compile_eq_ok h
  have hknown := (placed_of_schedule hplan).known
  have hwrites := Draft.writes_of_ofOrder (fun _ _ ↦ Library.builtin_declared) hdraft
  rw [List.filter_eq_self.2 (by simpa using hknown)] at hwrites
  have hstocked := Draft.stocked_of_ofOrder hknown hdraft
  refine ⟨id, plan, draft, terminal, hid, hplan, hdraft, rfl, hwrites.length_eq, ?_⟩
  intro c block hc
  obtain ⟨n, t, hn, hstems⟩ := ((List.forall₂_iff_zip.1 hwrites).2 hc).stems
  have ht := Library.mem_of_find?_ofList hn.type
  refine ⟨n, t, hn, fun s hs ↦ ?_⟩
  have hs := hstems s hs
  constructor
  · rintro (hinput | hgl | hfunction)
    · exact .inl (hs.of_input ht hinput)
    · exact .inr (.inl ((hs.word_prefix_iff (w := ['g', 'l']) (by decide)).1 hgl))
    · obtain ⟨text, htext, hname⟩ := List.mem_map.1 hfunction
      rcases hstocked.mem_blocks htext with ⟨u, hu, htype⟩ | ⟨p, hp, hcustom, rfl⟩
      · exact absurd hname.symm (hs.ne_helper hu htype)
      · rw [Draft.definedName_functionText] at hname
        refine .inr (.inr ⟨?_, p, hp, hcustom, hname.symm⟩)
        refine (hs.word_prefix_iff (w := ['c', 'f']) (by decide)).1 ?_
        rw [← hname, Draft.functionName, functionName_of_isSymbol (hstocked.isSymbol hp hcustom),
          String.toList_append]
        exact List.prefix_append _ _
  · rintro (⟨-, ⟨-, hname⟩ | ⟨-, hname⟩⟩ | hgl | ⟨-, p, hp, hcustom, hname⟩)
    · exact .inl (by simp [hname])
    · exact .inl (by simp [hname])
    · exact .inr (.inl ((hs.word_prefix_iff (w := ['g', 'l']) (by decide)).2 hgl))
    · refine .inr (.inr (List.mem_map.2 ⟨_, hstocked.functionText_mem hp hcustom, ?_⟩))
      rw [hname, Draft.definedName_functionText]

def Sample.call (id source output : String) : Node where
  id := id
  typeName := "CustomFunction"
  inputs := [{ key := "a", type := .float, wire := some ⟨source, output⟩ }]

def Sample.veiled : Graph where
  nodes := [{ id := "gl", typeName := "Float" }, Sample.call "cf" "gl" "value",
    Sample.call "out" "cf" "out"]

open Catalogue in
theorem compile_captures_veiled :
    ∃ shader plan draft, compile Sample.veiled .builtin {} (.preview "out") = .ok shader ∧
      schedule Sample.veiled .builtin "out" = .ok plan ∧
      Draft.ofOrder Sample.veiled .builtin {} plan.order = .ok draft ∧
      draft.names = ["gl_value", "cf_out", "out_out"] ∧ draft.functionName "out" = "cf_out" ∧
      draft.Captures "gl_value" ∧ draft.Captures "cf_out" ∧ ¬ draft.Captures "out_out" := by
  have hrun : (compile Sample.veiled .builtin {} (.preview "out")).isOk ∧
      (schedule Sample.veiled .builtin "out").map (·.order) = .ok ["gl", "cf", "out"] ∧
      (Draft.ofOrder Sample.veiled .builtin {} ["gl", "cf", "out"]).map
        (fun d ↦ (d.blocks, d.functionName "out")) =
        .ok ([[⟨.float, "gl_value", "0.0"⟩], [⟨.float, "cf_out", "cf_cf(gl_value)"⟩],
          [⟨.float, "out_out", "cf_out(cf_out)"⟩]], "cf_out") := by decide +kernel
  obtain ⟨hok, horder, hdone⟩ := hrun
  obtain ⟨shader, hs⟩ := exists_of_isOk hok
  obtain ⟨id, plan, draft, -, hid, hplan, hdraft, -, -, hcaptures⟩ := compile_captures hs
  obtain rfl := Option.some.inj hid
  have hplanned := of_map_eq_ok horder hplan
  rw [← hplanned] at hdone
  have hboth := of_map_eq_ok hdone hdraft
  obtain ⟨hblocks, hname⟩ := Prod.mk.inj hboth
  rw [hplanned, hblocks] at hcaptures
  obtain ⟨_, _, _, hgl⟩ := hcaptures "gl" _ (.head _)
  obtain ⟨_, _, _, hcf⟩ := hcaptures "cf" _ (.tail _ (.head _))
  obtain ⟨_, _, _, hout⟩ := hcaptures "out" _ (.tail _ (.tail _ (.head _)))
  have htype := find?_builtin customFunction_mem
  have hcustom : Present Sample.veiled .builtin "out" (Sample.call "out" "cf" "out") customFunction :=
    ⟨rfl, htype⟩
  have hinstance : (Sample.call "out" "cf" "out", customFunction) ∈
      Draft.instances Sample.veiled .builtin {} ["gl", "cf", "out"] :=
    List.mem_flatMap.2 ⟨"out", by simp, Bench.mem_instances_self hcustom _⟩
  refine ⟨shader, plan, draft, hs, hplan, hdraft, ?_, hname, ?_, ?_, ?_⟩
  · rw [Draft.names, hblocks]
    rfl
  · exact (hgl _ (.head _)).2 (.inr (.inl (by decide)))
  · exact (hcf _ (.head _)).2 (.inr (.inr ⟨by decide, _, hinstance, rfl, hname.symm⟩))
  · intro hcaptured
    rcases (hout _ (.head _)).1 hcaptured with ⟨hu, -⟩ | hgl | ⟨hcf, -⟩
    · exact absurd hu (by decide)
    · exact absurd hgl (by decide)
    · exact absurd hcf (by decide)

def Sample.clocks : Graph where
  nodes := [{ id := "u", typeName := "Time", params := .ofList [("speed", .int 2)] },
    { id := "clock", typeName := "Time" },
    { id := "sum", typeName := "Add",
      inputs := [{ key := "a", type := .float, wire := some ⟨"u", "time"⟩ },
        { key := "b", type := .float, wire := some ⟨"clock", "time"⟩ }] }]

/-- The second clock reads the variable of the first one, and not the input. -/
theorem compile_hidden_input :
    ∃ shader plan draft terminal, compile Sample.clocks .builtin {} (.preview "sum") = .ok shader ∧
      schedule Sample.clocks .builtin "sum" = .ok plan ∧
      Draft.ofOrder Sample.clocks .builtin {} plan.order = .ok draft ∧
      shader.source =
        assemble ({} : Settings).prologue draft.helpers (draft.blocks.map blockText) terminal ∧
      draft.blocks.map blockText = ["float u_time = u_time * 2.0;", "float clock_time = u_time * 1.0;",
        "float sum_out = u_time + clock_time;"] ∧
      ¬ ∀ name ∈ draft.names, ¬ draft.Captures name := by
  have hrun : (compile Sample.clocks .builtin {} (.preview "sum")).isOk ∧
      (schedule Sample.clocks .builtin "sum").map (·.order) = .ok ["u", "clock", "sum"] ∧
      (Draft.ofOrder Sample.clocks .builtin {} ["u", "clock", "sum"]).map
        (fun d ↦ (d.blocks.map blockText, d.names)) =
        .ok (["float u_time = u_time * 2.0;", "float clock_time = u_time * 1.0;",
          "float sum_out = u_time + clock_time;"], ["u_time", "clock_time", "sum_out"]) := by
    decide +kernel
  obtain ⟨hok, horder, htexts⟩ := hrun
  obtain ⟨shader, hs⟩ := exists_of_isOk hok
  obtain ⟨id, plan, t, draft, terminal, hid, hplan, -, hdraft, -, rfl⟩ := compile_eq_ok hs
  obtain rfl := Option.some.inj hid
  rw [← of_map_eq_ok horder hplan] at htexts
  have hboth := of_map_eq_ok htexts hdraft
  obtain ⟨hblocks, hnames⟩ := Prod.mk.inj hboth
  refine ⟨_, plan, draft, terminal, hs, hplan, hdraft, rfl, hblocks, ?_⟩
  rw [hnames]
  intro hnone
  exact hnone "u_time" (.head _) (.inl (by decide))

end NodeShader

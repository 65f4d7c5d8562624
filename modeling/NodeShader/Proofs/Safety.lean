import NodeShader.Proofs.Record
import NodeShader.Proofs.Shape

namespace NodeShader

open Text Glsl Catalogue

namespace Bench

variable {b : Bench} {room k : Nat} {n : Node} {t : NodeType} {stem c : String} {wires : Dict Term}
  {scope scope' : Scope} {e : Emission} {unroll : Emitter} {type : GlslType} {turn turn' : Turn}

variable (b) in
structure WellFormed : Prop where
  library : ∀ name t, b.library.find? name = some t → WritesExpressions t
  outputs : ∀ id exports, b.outputs.get? id = some exports → ∀ o ∈ exports, IsExpression o.2.text

theorem WellFormed.source? {w : Wire} {x : Term} (hb : b.WellFormed) (h : b.source? w = some x) :
    IsExpression x.text := by
  obtain ⟨exports, hexports, hx⟩ := Option.bind_eq_some_iff.1 h
  exact hb.outputs _ _ hexports _ (mem_of_lookup hx)

theorem expressions_insert {key : String} {x : Term} (h : Expressions wires)
    (hx : IsExpression x.text) : Expressions (wires.insert key x) := by
  intro k y hy
  rw [Dict.get?_insert] at hy
  split at hy
  · cases hy
    exact hx
  · exact h k y hy

theorem WellFormed.resolve (hb : b.WellFormed) (h : b.resolve n t = .ok wires) :
    Expressions wires := by
  refine foldlM_eq_ok_induction Expressions h nofun ?_
  intro wires wires' i _ hi hwires
  unfold connect at hi
  split at hi
  · cases hi
    exact hwires
  · split at hi
    · cases hi
      exact hwires
    · rename_i x hx
      split at hi
      · cases hi
        exact expressions_insert hwires (hb.source? hx)
      · cases hi

theorem expressions_withCarry {carry : Term} (h : Expressions wires) (hc : IsExpression carry.text)
    (n : Node) (t : NodeType) (type : GlslType) : Expressions (withCarry n t wires type carry) := by
  unfold withCarry
  split
  · exact expressions_insert h hc
  · exact h

structure Turn.WellFormed (turn : Turn) : Prop where
  emission : turn.emission.WellFormed
  carry : IsExpression turn.carry.text

theorem Turn.WellFormed.append (h : turn.WellFormed) (he : e.WellFormed) (type : GlslType)
    (scope : Scope) : (turn.append type e scope).WellFormed where
  emission := ⟨fun s hs ↦ (List.mem_append.1 hs).elim (h.emission.statements s) (he.statements s),
    h.emission.outputs⟩
  carry := by
    simp only [Turn.append]
    cases ho : e.outputs.find? (·.2.type == type) with
    | none => exact h.carry
    | some o => exact he.outputs o (List.mem_of_find?_eq_some ho)

def Emits (unroll : Emitter) : Prop :=
  ∀ n t stem wires scope e scope', WritesExpressions t → Expressions wires →
    unroll n t stem wires scope = .ok (e, scope') → e.WellFormed

theorem instantiate_emits (hu : Emits unroll) : Emits (instantiate unroll) := by
  intro n t stem wires scope e scope' ht hwires h
  unfold instantiate at h
  split at h
  · exact hu n t stem wires scope e scope' ht hwires h
  · cases h
    exact ht.emission hwires

theorem takeStep_wellFormed (hb : b.WellFormed) (hu : Emits unroll) (hturn : turn.WellFormed)
    (h : b.takeStep unroll type stem turn k c = .ok turn') : turn'.WellFormed := by
  rcases takeStep_eq_ok h with ⟨-, rfl⟩ | ⟨m, -, -, rfl⟩ |
    ⟨m, u, wires, stepStem, stepScope, e, scope, hm, hw, -, he, rfl⟩
  · exact hturn
  · exact ⟨⟨hturn.emission.statements, hturn.emission.outputs⟩, hturn.carry⟩
  · have hwires := expressions_withCarry (hb.resolve hw) hturn.carry m u type
    have hemission := instantiate_emits hu _ _ _ _ _ _ _ (hb.library _ u hm.type) hwires he
    exact hturn.append hemission type scope

theorem unroll_emits (hb : b.WellFormed) (room : Nat) : Emits (b.unroll room) := by
  induction room with
  | zero =>
    intro n t stem wires scope e scope' _ _ h
    cases h
  | succ room ih =>
    intro n t stem wires scope e scope' ht hwires h
    have hnone : Emission.WellFormed { diagnostics := (b.missingSteps n).map (.missingStep n.id) } :=
      ⟨nofun, nofun⟩
    rcases unroll_eq_ok h with ⟨-, -, rfl⟩ | ⟨-, -, -, rfl⟩ | ⟨-, -, -, room', turn, hroom, hrun, -, rfl⟩
    · exact hnone.declare (GlslType.isExpression_zero _)
    · exact ht.emission hwires
    · cases hroom
      have hturn : turn.WellFormed := by
        refine foldlM_eq_ok_induction Turn.WellFormed hrun ⟨⟨nofun, nofun⟩, ?_⟩ ?_
        · exact Site.isExpression_read hwires carryKey n.carryType
        · intro turn turn' s _ hs hturn
          exact takeStep_wellFormed hb ih hturn hs
      exact hturn.emission.declare hturn.carry

theorem emit_emits (hb : b.WellFormed) (room : Nat) : Emits (b.emit room) :=
  instantiate_emits (unroll_emits hb room)

end Bench

namespace Draft

variable {g : Graph} {lib : Library} {settings : Settings} {room : Nat} {d d' : Draft} {id : String}
  {order : List String}

structure WellFormed (d : Draft) : Prop where
  blocks : ∀ block ∈ d.blocks, ∀ s ∈ block, s.WellFormed
  outputs : ∀ id exports, d.outputs.get? id = some exports → ∀ o ∈ exports, IsExpression o.2.text

theorem WellFormed.append {e : Emission} (h : d.WellFormed) (he : e.WellFormed) (id : String)
    (scope : Scope) : (d.append id e scope).WellFormed where
  blocks block hblock := by
    simp only [Draft.append] at hblock
    split at hblock
    · exact h.blocks block hblock
    · rcases List.mem_append.1 hblock with hblock | hblock
      · exact h.blocks block hblock
      · obtain rfl := List.mem_singleton.1 hblock
        exact he.statements
  outputs k exports hk := by
    simp only [Draft.append, Dict.get?_insert] at hk
    split at hk
    · cases hk
      exact he.outputs
    · exact h.outputs k exports hk

theorem WellFormed.addNode (hlib : ∀ name t, lib.find? name = some t → WritesExpressions t)
    (hd : d.WellFormed) (h : addNode g lib settings room d id = .ok d') : d'.WellFormed := by
  rcases addNode_cases h with ⟨-, rfl⟩ | ⟨n, t, wires, stem, scope, e, scope', hn, hw, -, he, rfl⟩
  · exact hd
  · have hb : (bench g lib settings d).WellFormed := ⟨hlib, hd.outputs⟩
    exact hd.append (Bench.emit_emits hb room _ _ _ _ _ _ _ (hlib _ t hn.type) (hb.resolve hw) he) _ _

theorem wellFormed_of_ofOrder (hlib : ∀ name t, lib.find? name = some t → WritesExpressions t)
    (h : ofOrder g lib settings order = .ok d) : d.WellFormed :=
  foldlM_eq_ok_induction WellFormed h ⟨nofun, nofun⟩ fun _ _ _ _ hadd hd ↦ hd.addNode hlib hadd

end Draft

namespace Text

variable {c : Char} {cs xs ys : List Char}

theorem splitLines_cons (hc : c ≠ '\n') (h : c = '\r' → cs.head? ≠ some '\n') :
    splitLines (c :: cs) =
      match splitLines cs with
      | [] => [[c]]
      | l :: ls => (c :: l) :: ls := by
  refine splitLines.eq_4 c cs ?_ hc
  rintro cs' rfl rfl
  exact h rfl rfl

/-- A line that does not end in a carriage return stays as it is. -/
theorem splitLines_append (hxs : '\n' ∉ xs) (hlast : xs.getLast? ≠ some '\r') (ys : List Char) :
    splitLines (xs ++ '\n' :: ys) = xs :: splitLines ys := by
  induction xs with
  | nil => rfl
  | cons c xs ih =>
    have hc : c ≠ '\n' := fun hc ↦ hxs (hc ▸ List.mem_cons_self)
    have htail : '\n' ∉ xs := fun hmem ↦ hxs (.tail c hmem)
    cases xs with
    | nil =>
      rw [List.singleton_append, splitLines_cons hc fun hr ↦ absurd (congrArg some hr) hlast]
      rfl
    | cons d xs =>
      have hd : d ≠ '\n' := fun hd ↦ htail (hd ▸ List.mem_cons_self)
      rw [List.getLast?_cons_cons] at hlast
      rw [List.cons_append, splitLines_cons hc (by simpa using fun _ ↦ hd), ih htail hlast]

theorem splitLines_self (hne : xs ≠ []) (hxs : '\n' ∉ xs) : splitLines xs = [xs] := by
  induction xs with
  | nil => contradiction
  | cons c xs ih =>
    have hc : c ≠ '\n' := fun hc ↦ hxs (hc ▸ List.mem_cons_self)
    have htail : '\n' ∉ xs := fun hmem ↦ hxs (.tail c hmem)
    cases xs with
    | nil =>
      rw [splitLines_cons hc (by simp)]
      rfl
    | cons d xs =>
      have hd : d ≠ '\n' := fun hd ↦ htail (hd ▸ List.mem_cons_self)
      rw [splitLines_cons hc (by simpa using fun _ ↦ hd), ih (List.cons_ne_nil d xs) htail]

end Text

def IsDeclaration (line : String) : Prop :=
  ∃ (type : GlslType) (name value : String),
    line = type.name ++ " " ++ name ++ " = " ++ value ++ ";" ∧ IsIdentifier name ∧ IsExpression value

namespace Statement

variable {s : Statement} {ss : List Statement}

/-- The characters of a declaration before its end. -/
theorem WellFormed.exists_toList (h : s.WellFormed) :
    ∃ cs, s.text.toList = cs ++ [';'] ∧ ∀ c ∈ cs, endsStatement c = false := by
  have htype : Balanced s.type.name := by cases s.type <;> decide
  have hname := h.name.isExpression.toBalanced
  have hbody := (((htype.append (by decide : Balanced " ")).append hname).append
    (by decide : Balanced " = ")).append h.value.toBalanced
  exact ⟨_, String.toList_append, hbody.inert⟩

theorem WellFormed.count_text (h : s.WellFormed) : s.text.toList.count ';' = 1 := by
  obtain ⟨cs, htext, hcs⟩ := h.exists_toList
  have hzero : cs.count ';' = 0 := List.count_eq_zero.2 fun hmem ↦ by cases hcs _ hmem
  rw [htext, List.count_append, hzero]
  rfl

theorem blockText_singleton (s : Statement) : blockText [s] = s.text := by
  simp [blockText]

theorem toList_blockText_cons (s s' : Statement) (ss : List Statement) :
    (blockText (s :: s' :: ss)).toList = s.text.toList ++ '\n' :: (blockText (s' :: ss)).toList := by
  simp [blockText]

theorem lines_blockText_of_unbroken (h : ∀ s ∈ ss, Unbroken s.text) :
    Text.lines (blockText ss) = ss.map Statement.text := by
  suffices hchars : splitLines (blockText ss).toList = ss.map (·.text.toList) by
    simp [Text.lines, hchars]
  induction ss with
  | nil => rfl
  | cons s ss ih =>
    obtain ⟨hs, hss⟩ := List.forall_mem_cons.1 h
    have htext : s.text.toList.getLast? = some ';' := by
      rw [Statement.text, String.toList_append]
      exact List.getLast?_concat
    cases ss with
    | nil =>
      rw [blockText_singleton]
      refine splitLines_self (fun hnil ↦ ?_) hs
      simp [hnil] at htext
    | cons s' ss =>
      rw [toList_blockText_cons, splitLines_append hs (by simp [htext]), ih hss]
      rfl

theorem WellFormed.unbroken_text (h : s.WellFormed) : Unbroken s.text := by
  obtain ⟨cs, htext, hcs⟩ := h.exists_toList
  intro hmem
  rcases List.mem_append.1 (htext ▸ hmem) with hmem | hmem
  · cases hcs _ hmem
  · cases List.mem_singleton.1 hmem

theorem lines_blockText (h : ∀ s ∈ ss, s.WellFormed) :
    Text.lines (blockText ss) = ss.map Statement.text :=
  lines_blockText_of_unbroken fun s hs ↦ (h s hs).unbroken_text

theorem count_blockText (h : ∀ s ∈ ss, s.WellFormed) :
    (blockText ss).toList.count ';' = ss.length := by
  induction ss with
  | nil => rfl
  | cons s ss ih =>
    obtain ⟨hs, hss⟩ := List.forall_mem_cons.1 h
    cases ss with
    | nil =>
      rw [blockText_singleton]
      exact hs.count_text
    | cons s' ss =>
      rw [toList_blockText_cons, List.count_append, hs.count_text, List.count_cons, ih hss]
      simp
      omega

theorem brace_not_mem_blockText (h : ∀ s ∈ ss, s.WellFormed) :
    '\x7b' ∉ (blockText ss).toList ∧ '\x7d' ∉ (blockText ss).toList := by
  suffices hchars : ∀ c ∈ (blockText ss).toList, c = '\n' ∨ c = ';' ∨ endsStatement c = false by
    constructor <;> intro hmem <;> rcases hchars _ hmem with hc | hc | hc <;> cases hc
  induction ss with
  | nil => nofun
  | cons s ss ih =>
    obtain ⟨hs, hss⟩ := List.forall_mem_cons.1 h
    obtain ⟨cs, htext, hcs⟩ := hs.exists_toList
    have hline : ∀ c ∈ s.text.toList, c = ';' ∨ endsStatement c = false := by
      intro c hc
      rcases List.mem_append.1 (htext ▸ hc) with hc | hc
      · exact .inr (hcs c hc)
      · exact .inl (List.mem_singleton.1 hc)
    cases ss with
    | nil =>
      rw [blockText_singleton]
      exact fun c hc ↦ .inr (hline c hc)
    | cons s' ss =>
      intro c hc
      rw [toList_blockText_cons, List.mem_append, List.mem_cons] at hc
      rcases hc with hc | hc | hc
      · exact .inr (hline c hc)
      · exact .inl hc
      · exact ih hss c hc

end Statement

theorem Library.builtin_writesExpressions {name : String} {t : NodeType}
    (h : Library.builtin.find? name = some t) : WritesExpressions t :=
  writesExpressions_of_mem t (Library.mem_of_find?_ofList h)

/-- Whatever a graph says, each line that its nodes add to the main function is one declaration, and
no other statement begins or ends there. -/
theorem compile_declarations {g : Graph} {settings : Settings} {target : Target} {shader : Shader}
    (h : compile g .builtin settings target = .ok shader) :
    ∃ id plan draft terminal, target.node? g .builtin = some id ∧
      schedule g .builtin id = .ok plan ∧ Draft.ofOrder g .builtin settings plan.order = .ok draft ∧
      shader.source =
        assemble settings.prologue draft.helpers (draft.blocks.map blockText) terminal ∧
      ∀ block ∈ draft.blocks.map blockText,
        (∀ line ∈ Text.lines block, IsDeclaration line) ∧
        block.toList.count ';' = (Text.lines block).length ∧
        '\x7b' ∉ block.toList ∧ '\x7d' ∉ block.toList := by
  obtain ⟨id, plan, t, draft, terminal, hid, hplan, -, hdraft, -, rfl⟩ := compile_eq_ok h
  refine ⟨id, plan, draft, terminal, hid, hplan, hdraft, rfl, fun block hblock ↦ ?_⟩
  obtain ⟨ss, hss, rfl⟩ := List.mem_map.1 hblock
  have hformed : ∀ s ∈ ss, s.WellFormed :=
    (Draft.wellFormed_of_ofOrder (fun _ _ ↦ Library.builtin_writesExpressions) hdraft).blocks ss hss
  have hlines := Statement.lines_blockText hformed
  refine ⟨fun line hline ↦ ?_, ?_, Statement.brace_not_mem_blockText hformed⟩
  · obtain ⟨s, hs, rfl⟩ := List.mem_map.1 (hlines ▸ hline)
    exact ⟨s.type, s.name, s.value, rfl, (hformed s hs).name, (hformed s hs).value⟩
  · rw [hlines, List.length_map, Statement.count_blockText hformed]

/-- Names and a formula that would leave the main function if they were written as they are. -/
def Sample.hostile : Graph where
  nodes := [
    { id := "\x7d;//", typeName := "Expr",
      params := .ofList [("expression", .string "-a\n* f(2)")],
      inputs := [{ key := "a", type := .float, wire := some ⟨"x\n;", "value"⟩ }] },
    { id := "x\n;", typeName := "Float" },
    { id := "out", typeName := "Output",
      inputs := [{ key := "color", type := .vec3, wire := some ⟨"\x7d;//", "out"⟩ }] }]

theorem compile_declarations_hostile :
    ∃ shader draft, compile Sample.hostile .builtin {} .output = .ok shader ∧
      Draft.ofOrder Sample.hostile .builtin {} ["x\n;", "\x7d;//", "out"] = .ok draft ∧
      draft.blocks.map blockText = ["float x_value = 0.0;", "float _out = -x_value * f(2.0);",
        "vec3 out_color = vec3(_out);"] ∧
      ∀ block ∈ draft.blocks.map blockText, ∀ line ∈ Text.lines block, IsDeclaration line := by
  have hrun : (compile Sample.hostile .builtin {} .output).isOk ∧
      Target.node? Sample.hostile .builtin .output = some "out" ∧
      (schedule Sample.hostile .builtin "out").map (·.order) = .ok ["x\n;", "\x7d;//", "out"] ∧
      (Draft.ofOrder Sample.hostile .builtin {} ["x\n;", "\x7d;//", "out"]).map
        (·.blocks.map blockText) = .ok ["float x_value = 0.0;", "float _out = -x_value * f(2.0);",
          "vec3 out_color = vec3(_out);"] := by decide +kernel
  obtain ⟨hok, hout, horder, htexts⟩ := hrun
  obtain ⟨shader, hs⟩ := exists_of_isOk hok
  obtain ⟨id, plan, draft, -, hid, hplan, hdraft, -, hblocks⟩ := compile_declarations hs
  obtain rfl := Option.some.inj (hid.symm.trans hout)
  rw [of_map_eq_ok horder hplan] at hdraft
  have hlist := of_map_eq_ok htexts hdraft
  exact ⟨shader, draft, hs, hdraft, hlist, fun block hblock ↦ (hblocks block hblock).1⟩

end NodeShader

import NodeShader.Proofs.CustomFunctions
import NodeShader.Proofs.Inlets

namespace NodeShader

open Glsl

namespace Text

/-- The number of open parentheses after a character of an item. Its commas must stand in some. -/
def encloseItem (depth : Nat) (c : Char) : Option Nat :=
  if c = ',' ∧ depth = 0 then none else enclose depth c

/-- What can stand in a list with commas: its parentheses match and have all of its own commas inside, and
it does not begin with a blank. -/
structure IsItem (s : String) : Prop where
  closed : s.toList.foldlM encloseItem 0 = some 0
  start : s.toList.head? ≠ some ' '

instance (s : String) : Decidable (IsItem s) :=
  decidable_of_iff (s.toList.foldlM encloseItem 0 = some 0 ∧ s.toList.head? ≠ some ' ')
    ⟨fun h ↦ ⟨h.1, h.2⟩, fun h ↦ ⟨h.closed, h.start⟩⟩

/-- Cuts a text at the commas that stand in no parentheses. -/
def cut : (depth : Nat) → List Char → List (List Char)
  | _, [] => [[]]
  | depth, c :: cs =>
    if c = ',' ∧ depth = 0 then [] :: cut 0 cs
    else (cut ((enclose depth c).getD 0) cs).modifyHead (c :: ·)

def items (s : String) : List String :=
  (cut 0 s.toList).map fun part ↦ String.ofList (part.dropWhile (· == ' '))

variable {depth depth' : Nat} {cs xs : List Char} {s t : String} {c : Char}

theorem encloseItem_eq_some : encloseItem depth c = some depth' ↔
    ¬ (c = ',' ∧ depth = 0) ∧ enclose depth c = some depth' := by
  unfold encloseItem
  split <;> simp_all

theorem cut_append (h : xs.foldlM encloseItem depth = some depth') (ys : List Char) :
    cut depth (xs ++ ys) = (cut depth' ys).modifyHead (xs ++ ·) := by
  induction xs generalizing depth with
  | nil =>
    cases h
    rw [List.nil_append]
    cases cut depth' ys <;> rfl
  | cons c xs ih =>
    obtain ⟨d, hd, h⟩ := Option.bind_eq_some_iff.1 h
    obtain ⟨hcomma, hd⟩ := encloseItem_eq_some.1 hd
    rw [List.cons_append, cut, if_neg hcomma, hd, Option.getD_some, ih h, List.modifyHead_modifyHead]
    rfl

/-- Inside of parentheses commas do not matter. -/
theorem foldlM_encloseItem (h : nesting depth cs = some depth') :
    cs.foldlM encloseItem (depth + 1) = some (depth' + 1) := by
  induction cs generalizing depth with
  | nil =>
    cases h
    rfl
  | cons c cs ih =>
    obtain ⟨d, hd, h⟩ := Option.bind_eq_some_iff.1 h
    have hnest : nesting depth [c] = some d := by simp [nesting, hd]
    have hstep : nesting (depth + 1) [c] = some (d + 1) := nesting_add hnest 1
    refine Option.bind_eq_some_iff.2 ⟨d + 1, encloseItem_eq_some.2 ⟨by simp, ?_⟩, ih h⟩
    simpa [nesting] using hstep

theorem nesting_of_foldlM_encloseItem (h : cs.foldlM encloseItem depth = some depth') :
    nesting depth cs = some depth' := by
  induction cs generalizing depth with
  | nil => exact h
  | cons c cs ih =>
    obtain ⟨d, hd, h⟩ := Option.bind_eq_some_iff.1 h
    exact Option.bind_eq_some_iff.2 ⟨d, (encloseItem_eq_some.1 hd).2, ih h⟩

theorem foldlM_encloseItem_of_plain (h : ∀ c ∈ cs, c ≠ '(' ∧ c ≠ ')' ∧ c ≠ ',') :
    cs.foldlM encloseItem depth = some depth := by
  induction cs with
  | nil => rfl
  | cons c cs ih =>
    obtain ⟨⟨hopen, hclose, hcomma⟩, htail⟩ := List.forall_mem_cons.1 h
    have hstep : encloseItem depth c = some depth := by simp [encloseItem, enclose, hopen, hclose, hcomma]
    exact Option.bind_eq_some_iff.2 ⟨depth, hstep, ih htail⟩

theorem isItem_of_plain (h : ∀ c ∈ s.toList, isPlain c) : IsItem s where
  closed := by
    refine foldlM_encloseItem_of_plain fun c hc ↦ ⟨?_, ?_, ?_⟩ <;>
    · rintro rfl
      cases h _ hc
  start hhead := by cases h _ (List.mem_of_head? hhead)

theorem isItem_between {l r : String} {k : Nat} (h : nesting 0 s.toList = some 0)
    (hl : l.toList.foldlM encloseItem 0 = some (k + 1)) (hstart : l.toList.head?.any (· != ' '))
    (hr : r.toList.foldlM encloseItem (k + 1) = some 0) : IsItem (l ++ s ++ r) where
  closed := by
    have hinner := foldlM_encloseItem (by simpa using nesting_add h k)
    simp only [String.toList_append, List.foldlM_append, hl, hinner, Option.bind_eq_bind, Option.bind_some, hr]
  start := by
    cases hcs : l.toList with
    | nil => simp [hcs] at hstart
    | cons c cs => simpa [hcs] using hstart

theorem IsItem.dropWhile_eq (h : IsItem s) : s.toList.dropWhile (· == ' ') = s.toList := by
  have hstart := h.start
  cases hcs : s.toList with
  | nil => rfl
  | cons c cs =>
    rw [hcs] at hstart
    exact List.dropWhile_cons_of_neg (by simpa using hstart)

theorem items_of_isItem (h : IsItem s) : items s = [s] := by
  have hcut : cut 0 s.toList = [s.toList] := by simpa [cut] using cut_append h.closed []
  rw [items, hcut, List.map_singleton, h.dropWhile_eq, String.ofList_toList]

theorem items_cons (h : IsItem s) (t : String) : items (s ++ ", " ++ t) = s :: items t := by
  have htext : (s ++ ", " ++ t).toList = s.toList ++ ',' :: ' ' :: t.toList := by simp
  have hcut : cut 0 (s ++ ", " ++ t).toList = s.toList :: (cut 0 t.toList).modifyHead (' ' :: ·) := by
    rw [htext, cut_append h.closed]
    simp [cut, enclose]
  rw [items, hcut, List.map_cons, h.dropWhile_eq, String.ofList_toList, items]
  cases cut 0 t.toList <;> rfl

theorem items_intercalate {ss : List String} (hne : ss ≠ []) (h : ∀ s ∈ ss, IsItem s) :
    items (", ".intercalate ss) = ss := by
  induction ss with
  | nil => exact absurd rfl hne
  | cons s ss ih =>
    obtain ⟨hs, htail⟩ := List.forall_mem_cons.1 h
    cases ss with
    | nil => simpa using items_of_isItem hs
    | cons t ss => rw [String.intercalate_cons_cons, items_cons hs, ih (List.cons_ne_nil t ss) htail]

end Text

open Text

theorem Glsl.isItem_floatLiteral (x : Binary32) : IsItem (floatLiteral x) :=
  isItem_of_plain fun _ ↦ isPlain_floatLiteral

theorem Glsl.isItem_vectorLiteral (xs : List Binary32) : IsItem (vectorLiteral xs) := by
  have hname : ∀ c ∈ ("vec" ++ toString xs.length).toList, isPlain c := by
    simp only [String.toList_append, List.forall_mem_append, toList_toString]
    exact ⟨List.all_eq_true.1 (by decide), fun c hc ↦ isPlain_digits hc⟩
  refine isItem_between (k := 0) (balanced_floatLiterals xs).closed ?_ ?_ (by decide)
  · rw [String.toList_append, List.foldlM_append, (isItem_of_plain hname).closed]
    rfl
  · simp

theorem Glsl.isItem_literal (xs : List Binary32) : IsItem (literal xs) := by
  unfold literal
  split
  · exact isItem_floatLiteral _
  · exact isItem_vectorLiteral _

theorem Term.isItem_spread {x : Term} (h : IsItem x.text) (t : GlslType) : IsItem (x.spread t).text := by
  have hnest := nesting_of_foldlM_encloseItem h.closed
  cases t with
  | float => exact h
  | vec2 => exact isItem_between (k := 0) hnest (by decide) (by decide) (by decide)
  | vec3 => exact isItem_between (k := 0) hnest (by decide) (by decide) (by decide)
  | vec4 => exact isItem_between (k := 1) hnest (by decide) (by decide) (by decide)

theorem Reading.isItem {s : Site} {key : String} {type : GlslType} {x : Term} (h : Reading s key type x)
    (hw : ∀ y, s.wires.get? key = some y → IsItem y.text) : IsItem x.text := by
  cases h with
  | wire hx _ => exact hw _ hx
  | spread hx _ _ => exact Term.isItem_spread (hw _ hx) type
  | literal _ _ _ _ => exact isItem_literal _
  | zero _ _ => cases type <;> decide

def readParameter (s : String) : String × String :=
  (String.ofList (s.toList.takeWhile (· != ' ')), String.ofList ((s.toList.dropWhile (· != ' ')).drop 1))

def definedParameters (text : String) : List (String × String) :=
  (items (String.ofList (((text.toList.dropWhile (· != '(')).drop 1).takeWhile (· != ')')))).map readParameter

def passedArguments (call : String) : List String :=
  items (String.ofList ((call.toList.dropWhile (· != '(')).drop 1).dropLast)

theorem passedArguments_call {name : String} {args : List String} (hname : '(' ∉ name.toList)
    (hne : args ≠ []) (h : ∀ s ∈ args, IsItem s) :
    passedArguments (name ++ "(" ++ ", ".intercalate args ++ ")") = args := by
  have htext : (name ++ "(" ++ ", ".intercalate args ++ ")").toList =
      name.toList ++ '(' :: ((", ".intercalate args).toList ++ [')']) := by simp
  rw [passedArguments, htext, (upTo_mark hname _).2, List.drop_one, List.tail_cons, List.dropLast_concat,
    String.ofList_toList, items_intercalate hne h]

theorem readParameter_eq (t : GlslType) (name : String) :
    readParameter (t.name ++ " " ++ name) = (t.name, name) := by
  have hblank : ' ' ∉ t.name.toList := by cases t <;> decide
  have htext : (t.name ++ " " ++ name).toList = t.name.toList ++ ' ' :: name.toList := by simp
  simp only [readParameter, htext, upTo_mark hblank, List.drop_one, List.tail_cons, String.ofList_toList]

theorem isPlain_parameter {t : GlslType} {name : String} {c : Char} (h : IsIdentifier name)
    (hc : c ∈ (t.name ++ " " ++ name).toList) : isPlain c ∨ c = ' ' := by
  have htype : t.name.toList.all isPlain := by cases t <;> decide
  simp only [String.toList_append, List.mem_append] at hc
  rcases hc with (hc | hc) | hc
  · exact .inl (List.all_eq_true.1 htype c hc)
  · exact .inr (List.mem_singleton.1 hc)
  · exact .inl (by simp [isPlain, h.word c hc])

theorem isItem_parameter (t : GlslType) {name : String} (h : IsIdentifier name) :
    IsItem (t.name ++ " " ++ name) := by
  refine ⟨foldlM_encloseItem_of_plain fun c hc ↦ ⟨?_, ?_, ?_⟩, by cases t <;> simp [GlslType.name]⟩ <;>
  · rintro rfl
    exact absurd (isPlain_parameter h hc) (by decide)

/-- Where different inputs have different keys, each reads something of its type. -/
theorem Node.Accepts.reading {n : Node} {t : NodeType} {stem : String} {wires : Dict Term} {i : Inlet}
    (h : n.Accepts t wires) (hkeys : ((n.inlets t).map (·.key)).Nodup) (hi : i ∈ n.inlets t) :
    Reading (n.site t stem wires) i.key i.type ((n.site t stem wires).read i.key i.type) := by
  refine Site.reading fun x hx ↦ ?_
  obtain ⟨j, hj, hkey, hfeeds⟩ := h i.key x hx
  rw [List.inj_on_of_nodup_map hkeys hj hi hkey] at hfeeds
  exact GlslType.feeds_cases hfeeds

namespace Catalogue

theorem functionText_header (site : Site) : ∃ rest, (functionText site).toList =
    ((returnType site).name ++ " " ++ functionName site.symbol).toList ++
      '(' :: ((", ".intercalate (parameters site)).toList ++ ')' :: rest) := by
  refine ⟨(" \x7b\n" ++ indent (functionBody ((site.text? "body").getD "") (returnType site)) 1 ++
    "\n\x7d").toList, ?_⟩
  simp [functionText]

theorem definedParameters_functionText {site : Site} (hne : site.inputs ≠ []) :
    definedParameters (functionText site) =
      site.inputs.map fun p ↦ (p.type.name, identifier p.key) := by
  have hopen : '(' ∉ ((returnType site).name ++ " " ++ functionName site.symbol).toList := by
    simp only [String.toList_append, List.mem_append, not_or]
    exact ⟨⟨by cases returnType site <;> decide, by decide⟩, open_not_mem_functionName site.symbol⟩
  have hclose : ')' ∉ (", ".intercalate (parameters site)).toList := by
    refine not_mem_intercalate (by decide) fun s hs ↦ ?_
    obtain ⟨p, -, rfl⟩ := List.mem_map.1 hs
    intro hmem
    exact absurd (isPlain_parameter (isIdentifier_identifier p.key) hmem) (by decide)
  have hitems : items (", ".intercalate (parameters site)) = parameters site := by
    refine items_intercalate (by simpa [parameters] using hne) fun s hs ↦ ?_
    obtain ⟨p, -, rfl⟩ := List.mem_map.1 hs
    exact isItem_parameter p.type (isIdentifier_identifier p.key)
  obtain ⟨rest, hrest⟩ := functionText_header site
  rw [definedParameters, hrest, (upTo_mark hopen _).2, List.drop_one, List.tail_cons,
    (upTo_mark hclose _).1, String.ofList_toList, hitems, parameters, List.map_map]
  exact List.map_congr_left fun p _ ↦ readParameter_eq p.type _

theorem inlets_ne_nil (n : Node) : n.inlets customFunction ≠ [] := by
  unfold Node.inlets
  split
  · exact List.cons_ne_nil _ _
  · rename_i h
    simpa using h

theorem nodup_names_iff {is : List Inlet} (hkeys : (is.map (·.key)).Nodup) :
    (is.map fun i ↦ identifier i.key).Nodup ↔
      ∀ i ∈ is, ∀ j ∈ is, identifier i.key = identifier j.key → i.key = j.key := by
  have hmap : (is.map fun i ↦ identifier i.key) = (is.map (·.key)).map identifier := by simp
  rw [hmap, List.nodup_map_iff_inj_on hkeys]
  simp only [List.forall_mem_map]

theorem definedParameters_customText (n : Node) (symbol : String) :
    definedParameters (customText n symbol) =
      (n.inlets customFunction).map fun i ↦ (i.type.name, identifier i.key) := by
  refine (definedParameters_functionText ?_).trans List.map_map
  simpa [Node.site, Site.inputs] using inlets_ne_nil n

theorem arguments_site (n : Node) (stem : String) (wires : Dict Term) :
    arguments (n.site customFunction stem wires) = ((n.inlets customFunction).map fun i ↦
      (n.site customFunction stem wires).read i.key i.type).map (·.text) := by
  simp [arguments, Node.site, Site.inputs, Function.comp_def]

/-- The header of a custom function has a parameter for each input, of its type and with an allowed name,
and a call passes to each of them, in the same order, what the input reads, which has that type. Two
parameters have the same name just if their keys become the same one, and keys that are names already stay
as they are. -/
theorem customFunction_header (n : Node) (symbol : String)
    (hkeys : ((n.inlets customFunction).map (·.key)).Nodup) :
    definedParameters (customText n symbol) =
        ((n.inlets customFunction).map fun i ↦ (i.type.name, identifier i.key)) ∧
      (∀ p ∈ definedParameters (customText n symbol), IsIdentifier p.2) ∧
      (((definedParameters (customText n symbol)).map (·.2)).Nodup ↔
        ∀ i ∈ n.inlets customFunction, ∀ j ∈ n.inlets customFunction,
          identifier i.key = identifier j.key → i.key = j.key) ∧
      ((∀ i ∈ n.inlets customFunction, IsIdentifier i.key) →
        (definedParameters (customText n symbol)).map (·.2) = (n.inlets customFunction).map (·.key)) ∧
      ∀ stem wires, n.Accepts customFunction wires → ∃ (type : GlslType) (call : String) (args : List Term),
        (customFunction.emission { n.site customFunction stem wires with symbol := symbol }).helpers =
            [customText n symbol] ∧
          (customFunction.emission { n.site customFunction stem wires with symbol := symbol }).statements =
            [⟨type, variableName stem "out", call⟩] ∧
          call = functionName symbol ++ "(" ++ ", ".intercalate (args.map (·.text)) ++ ")" ∧
          List.Forall₂ (fun p a ↦ p.1 = a.type.name) (definedParameters (customText n symbol)) args ∧
          List.Forall₂ (fun i a ↦ Reading (n.site customFunction stem wires) i.key i.type a)
            (n.inlets customFunction) args ∧
          ((∀ key x, wires.get? key = some x → IsItem x.text) → passedArguments call = args.map (·.text)) := by
  have hparams := definedParameters_customText n symbol
  have hnames : (definedParameters (customText n symbol)).map (·.2) =
      (n.inlets customFunction).map fun i ↦ identifier i.key := by simp [hparams]
  refine ⟨hparams, ?_, ?_, ?_, ?_⟩
  · rw [hparams, List.forall_mem_map]
    exact fun i _ ↦ isIdentifier_identifier i.key
  · rw [hnames, nodup_names_iff hkeys]
  · intro hident
    rw [hnames]
    exact List.map_congr_left fun i hi ↦ (hident i hi).identifier_eq
  · intro stem wires hwires
    let site := n.site customFunction stem wires
    have hread : ∀ i ∈ n.inlets customFunction, Reading site i.key i.type (site.read i.key i.type) :=
      fun i hi ↦ hwires.reading hkeys hi
    refine ⟨returnType site, functionName symbol ++ "(" ++ ", ".intercalate (arguments site) ++ ")",
      (n.inlets customFunction).map fun i ↦ site.read i.key i.type, rfl, rfl, ?_, ?_, ?_, ?_⟩
    · rw [arguments_site]
    · rw [hparams, List.forall₂_map_left_iff, List.forall₂_map_right_iff, List.forall₂_same]
      exact fun i hi ↦ congrArg GlslType.name (hread i hi).type_eq.symm
    · rw [List.forall₂_map_right_iff, List.forall₂_same]
      exact hread
    · intro hitems
      rw [arguments_site]
      refine passedArguments_call (open_not_mem_functionName symbol) (by simpa using inlets_ne_nil n) ?_
      simp only [List.forall_mem_map]
      exact fun i hi ↦ (hread i hi).isItem fun x hx ↦ hitems i.key x hx

end Catalogue

def Sample.headed (inputs : List Pin) : Node where
  id := "mix"
  typeName := "CustomFunction"
  params := .ofList [("1st", .array [.int 1, .int 2])]
  inputs := inputs.map fun p ↦ { p with }

def Sample.mixed : Node := Sample.headed [⟨"a-b", .vec3⟩, ⟨"1st", .vec2⟩, ⟨"a_", .float⟩]

def Sample.mixedWires : Dict Term := Dict.empty.insert "a-b" ⟨.float, "t_time"⟩

open Catalogue in
theorem customFunction_header_mixed :
    ((Sample.mixed.inlets customFunction).map (·.key)).Nodup ∧
      Sample.mixed.Accepts customFunction Sample.mixedWires ∧
      (∀ key x, Sample.mixedWires.get? key = some x → IsItem x.text) ∧
      definedParameters (customText Sample.mixed "mix") =
        [("vec3", "a_b"), ("vec2", "n1st"), ("float", "a_")] ∧
      ((definedParameters (customText Sample.mixed "mix")).map (·.2)).Nodup ∧
      ∃ type call args,
        (customFunction.emission { Sample.mixed.site customFunction "mix" Sample.mixedWires with
          symbol := "mix" }).statements = [⟨type, "mix_out", call⟩] ∧
        List.Forall₂ (fun (p : String × String) (a : Term) ↦ p.1 = a.type.name)
          [("vec3", "a_b"), ("vec2", "n1st"), ("float", "a_")] args ∧
        passedArguments call = args.map (·.text) ∧
        passedArguments call = ["vec3(t_time)", "vec2(1.0, 2.0)", "0.0"] := by
  have hkeys : ((Sample.mixed.inlets customFunction).map (·.key)).Nodup := by decide
  have hwires : Sample.mixed.Accepts customFunction Sample.mixedWires :=
    Node.Accepts.insert (i := ⟨⟨"a-b", .vec3⟩, none⟩) nofun (by decide) (by decide)
  have hitems : ∀ key x, Sample.mixedWires.get? key = some x → IsItem x.text := by
    intro key x hx
    rw [Sample.mixedWires, Dict.get?_insert] at hx
    split at hx
    · cases hx
      decide
    · cases hx
  have hparams : definedParameters (customText Sample.mixed "mix") =
      [("vec3", "a_b"), ("vec2", "n1st"), ("float", "a_")] := by decide +kernel
  obtain ⟨-, -, hnodup, -, hcalls⟩ := customFunction_header Sample.mixed "mix" hkeys
  obtain ⟨type, call, args, -, hstatements, -, htypes, -, hpassed⟩ := hcalls "mix" _ hwires
  rw [hparams] at htypes
  refine ⟨hkeys, hwires, hitems, hparams, hnodup.2 (by decide +kernel), type, call, args, hstatements, htypes,
    hpassed hitems, ?_⟩
  have hvalue : (customFunction.emission { Sample.mixed.site customFunction "mix" Sample.mixedWires with
      symbol := "mix" }).statements = [⟨.float, "mix_out", "cf_mix(vec3(t_time), vec2(1.0, 2.0), 0.0)"⟩] := by
    decide +kernel
  rw [hvalue] at hstatements
  cases hstatements
  decide +kernel

open Catalogue in
/-- Keys that are different and become the same name. -/
theorem customFunction_header_clash :
    (((Sample.headed [⟨"a-b", .float⟩, ⟨"a_b", .float⟩]).inlets customFunction).map (·.key)).Nodup ∧
      definedParameters (customText (Sample.headed [⟨"a-b", .float⟩, ⟨"a_b", .float⟩]) "mix") =
        [("float", "a_b"), ("float", "a_b")] := by
  decide +kernel

end NodeShader

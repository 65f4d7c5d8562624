import NodeShader.Proofs.Identifier
import NodeShader.Proofs.Instances
import NodeShader.Proofs.Verdict

namespace NodeShader

open Relation Schedule

/-- Wherever the second text stands, the first stands before it. -/
def Precedes (y x : String) (xs : List String) : Prop :=
  ∀ before after, xs = before ++ x :: after → y ∈ before

section Precedes

variable {x y z : String} {xs ys : List String}

theorem precedes_nil : Precedes y x [] := by
  intro before after h
  simp at h

theorem precedes_cons : Precedes y x (z :: xs) ↔ z ≠ x ∧ (y = z ∨ Precedes y x xs) := by
  constructor
  · intro h
    refine ⟨?_, ?_⟩
    · intro hz
      exact absurd (h [] xs (by rw [hz, List.nil_append])) List.not_mem_nil
    · by_cases hy : y = z
      · exact .inl hy
      · refine .inr fun before after hxs ↦ ?_
        have hmem := h (z :: before) after (by rw [hxs, List.cons_append])
        exact (List.mem_cons.1 hmem).resolve_left hy
  · intro ⟨hz, h⟩ before after hxs
    cases before with
    | nil => exact absurd (List.cons.inj hxs).1 hz
    | cons w before =>
      obtain ⟨rfl, htail⟩ := List.cons.inj hxs
      rcases h with rfl | h
      · exact List.mem_cons_self
      · exact List.mem_cons_of_mem z (h before after htail)

theorem Precedes.append (h : Precedes y x xs) (h' : Precedes y x ys) :
    Precedes y x (xs ++ ys) := by
  intro before after hsplit
  rcases List.append_eq_append_iff.1 hsplit with ⟨rest, rfl, hys⟩ | ⟨rest, rfl, hrest⟩
  · exact List.mem_append_right xs (h' rest after hys)
  · cases rest with
    | nil => exact absurd (h' [] after hrest.symm) List.not_mem_nil
    | cons w rest =>
      obtain ⟨rfl, -⟩ := List.cons.inj hrest
      exact h before rest rfl

theorem precedes_flatMap {α : Type} {f : α → List String} {as : List α}
    (h : ∀ a ∈ as, Precedes y x (f a)) : Precedes y x (as.flatMap f) := by
  induction as with
  | nil => exact precedes_nil
  | cons a as ih =>
    rw [List.flatMap_cons]
    exact (h a List.mem_cons_self).append (ih fun b hb ↦ h b (List.mem_cons_of_mem a hb))

theorem Precedes.snoc (h : Precedes y x xs) (hz : z = x → y ∈ xs) : Precedes y x (xs ++ [z]) := by
  intro before after hsplit
  rcases List.eq_nil_or_concat after with rfl | ⟨after, w, rfl⟩
  · obtain ⟨rfl, hlast⟩ := List.append_inj' hsplit rfl
    exact hz (List.singleton_inj.1 hlast)
  · have hinit : xs ++ [z] = (before ++ x :: after) ++ [w] := by simpa using hsplit
    exact h before after (List.append_inj' hinit rfl).1

/-- Only first occurrences matter to what comes before what. -/
theorem Precedes.distinct (h : Precedes y x xs) : Precedes y x (distinct xs) := by
  induction xs using List.reverseRecOn with
  | nil => exact precedes_nil
  | append_singleton xs z ih =>
    have hdistinct := ih fun before after hxs ↦ h before (after ++ [z]) (by simp [hxs])
    have hsnoc : NodeShader.distinct (xs ++ [z]) = addNew (NodeShader.distinct xs) z :=
      mergeNew_append [] xs [z]
    rw [hsnoc, addNew]
    split
    · exact hdistinct
    · apply hdistinct.snoc
      intro hz
      exact mem_distinct.2 (h xs [] (by rw [hz]))

end Precedes

namespace Text

variable {s : String} {c : Char}

theorem blank_of_getLast? (h : s.toList.getLast? = some c) (hc : isBlank c = false) :
    blank s = false := by
  rw [blank, List.all_eq_false]
  exact ⟨c, List.mem_of_getLast? h, by simp [hc]⟩

theorem trimEnd_of_getLast? (h : s.toList.getLast? = some c) (hc : isBlank c = false) :
    trimEnd s = s := by
  obtain ⟨cs, hcs⟩ := List.getLast?_eq_some_iff.1 h
  rw [trimEnd, dropEndWhile, hcs, List.reverse_append, List.reverse_singleton, List.singleton_append,
    List.dropWhile_cons_of_neg (by simp [hc]), List.reverse_cons, List.reverse_reverse, ← hcs,
    String.ofList_toList]

end Text

def NodeType.supplies (t : NodeType) (n : Node) (symbol : String) : List String :=
  t.helpers ++ (t.emit { n.site t "" .empty with symbol := symbol }).helpers

namespace Catalogue

def calls : List (String × String) :=
  [(hash22Helper, gradientNoiseHelper), (hash22Helper, voronoiHelper),
    (gradientNoiseHelper, fbmHelper)]

/-- Whole functions, none of them before one that it calls. -/
structure Orderly (texts : List String) : Prop where
  closed : ∀ text ∈ texts, text.toList.getLast? = some '\x7d'
  ordered : ∀ p ∈ calls, Precedes p.1 p.2 texts

theorem orderly_nil : Orderly [] := ⟨List.forall_mem_nil _, fun _ _ ↦ precedes_nil⟩

theorem Orderly.append {xs ys : List String} (hx : Orderly xs) (hy : Orderly ys) :
    Orderly (xs ++ ys) where
  closed := List.forall_mem_append.2 ⟨hx.closed, hy.closed⟩
  ordered p hp := (hx.ordered p hp).append (hy.ordered p hp)

theorem Orderly.shown {texts : List String} (h : Orderly texts) :
    ∀ text ∈ texts, Text.blank text = false := fun text htext ↦
  Text.blank_of_getLast? (h.closed text htext) rfl

theorem Orderly.map_trimEnd {texts : List String} (h : Orderly texts) :
    texts.map Text.trimEnd = texts :=
  (List.map_congr_left fun text htext ↦ Text.trimEnd_of_getLast? (h.closed text htext) rfl).trans
    (List.map_id texts)

theorem Orderly.distinct {texts : List String} (h : Orderly texts) : Orderly (distinct texts) where
  closed text htext := h.closed text (mem_distinct.1 htext)
  ordered p hp := (h.ordered p hp).distinct

theorem orderly_flatMap {α : Type} {f : α → List String} {as : List α}
    (h : ∀ a ∈ as, Orderly (f a)) : Orderly (as.flatMap f) where
  closed text htext := by
    obtain ⟨a, ha, htext⟩ := List.mem_flatMap.1 htext
    exact (h a ha).closed text htext
  ordered p hp := precedes_flatMap fun a ha ↦ (h a ha).ordered p hp

theorem orderly_singleton {text : String} (htext : text.toList.getLast? = some '\x7d')
    (hne : ∀ p ∈ calls, text ≠ p.2) : Orderly [text] where
  closed := by simpa using htext
  ordered p hp := precedes_cons.2 ⟨hne p hp, .inr precedes_nil⟩

theorem getLast?_ofList {cs : List Char} {c : Char} (h : cs.getLast? = some c) :
    (String.ofList cs).toList.getLast? = some c := by
  rw [String.toList_ofList]
  exact h

section Texts

-- The texts are unfolded to lists of characters.
set_option maxRecDepth 4000

theorem orderly_single : ∀ text ∈ [sdBoxHelper, sminHelper, smaxHelper, paletteHelper, hsv2rgbHelper],
    Orderly [text] := by
  simp only [List.forall_mem_cons, List.not_mem_nil, false_implies, implies_true, and_true]
  and_intros <;>
    exact orderly_singleton (getLast?_ofList (by rfl)) (by
      simp [calls, gradientNoiseHelper, voronoiHelper, fbmHelper, sdBoxHelper, sminHelper, smaxHelper,
        paletteHelper, hsv2rgbHelper])

theorem getLast?_noises : ∀ text ∈ [hash22Helper, gradientNoiseHelper, voronoiHelper, fbmHelper],
    text.toList.getLast? = some '\x7d' := by
  simp only [List.forall_mem_cons, List.not_mem_nil, false_implies, implies_true, and_true]
  and_intros <;> exact getLast?_ofList (by rfl)

theorem nodup_noises : [hash22Helper, gradientNoiseHelper, voronoiHelper, fbmHelper].Nodup := by
  simp [hash22Helper, gradientNoiseHelper, voronoiHelper, fbmHelper]

end Texts

theorem orderly_noises : ∀ t ∈ noises, Orderly t.helpers := by
  have hlast := getLast?_noises
  have hnodup := nodup_noises
  simp only [List.mem_cons, List.nodup_cons, not_or] at hlast hnodup
  intro t ht
  simp only [noises, List.mem_cons, List.not_mem_nil, or_false] at ht
  constructor
  · rcases ht with rfl | rfl | rfl <;> simp [noise, fbm, voronoi, hlast]
  · rcases ht with rfl | rfl | rfl <;>
      simp [noise, fbm, voronoi, calls, precedes_cons, precedes_nil, hnodup]

theorem orderly_helpers : ∀ t ∈ all, Orderly t.helpers := by
  refine forall_helpers orderly_nil ?_
  change ∀ t ∈ noises ++ [sdBox, smoothMin, smoothMax, palette, hsvToRgb], Orderly t.helpers
  refine List.forall_mem_append.2 ⟨orderly_noises, ?_⟩
  simp only [List.forall_mem_cons, List.not_mem_nil, false_implies, implies_true, and_true]
  and_intros <;> exact orderly_single _ (by simp)

theorem helpers_of_loop : ∀ t ∈ all, t.role = .loop → t.helpers = [] := by decide +kernel

theorem helpers_formulaEmission (site : Site) : (formulaEmission site).helpers = [] := by
  simp only [formulaEmission]
  split
  · rfl
  · split
    · rfl
    · rfl

/-- The functions of an instance depend on its node and symbol alone. -/
theorem helpers_emission {t : NodeType} (ht : t ∈ all) (n : Node) (stem symbol : String)
    (wires : Dict Term) : (t.emission { n.site t stem wires with symbol := symbol }).helpers =
      t.supplies n symbol := by
  rcases recipe_or_of_mem t ht with ⟨r, hr⟩ | rfl | rfl | rfl
  · simp only [NodeType.emission, NodeType.supplies, hr, (Recipe.emit_plain _ _).1]
  · rfl
  · simp only [NodeType.emission, NodeType.supplies, emit_formula, helpers_formulaEmission]
  · rfl

theorem supplies_of_loop {t : NodeType} (ht : t ∈ all) (hl : t.role = .loop) (n : Node)
    (symbol : String) : t.supplies n symbol = [] := by
  rw [NodeType.supplies, helpers_of_loop t ht hl, List.nil_append]
  rcases recipe_or_of_mem t ht with ⟨r, hr⟩ | rfl | rfl | rfl
  · rw [hr, (Recipe.emit_plain _ _).1]
  · cases hl
  · cases hl
  · rfl

theorem toList_functionName (symbol : String) : ∃ cs, (functionName symbol).toList = 'c' :: cs := by
  have hhead : (functionName symbol).toList.head? = some 'c' := by
    rw [functionName, Glsl.toList_identifier, Glsl.head?_squeeze]
    simp [Glsl.sanitize, Glsl.guardStart, Text.isWordChar]
  cases h : (functionName symbol).toList with
  | nil => simp [h] at hhead
  | cons c cs =>
    obtain rfl : c = 'c' := by simpa [h] using hhead
    exact ⟨cs, rfl⟩

theorem toList_functionText (site : Site) : ∃ type : GlslType, ∃ cs,
    (functionText site).toList = type.name.toList ++ ' ' :: 'c' :: cs := by
  obtain ⟨cs, hcs⟩ := toList_functionName site.symbol
  have htext : ∃ tail, functionText site =
      (returnType site).name ++ " " ++ functionName site.symbol ++ tail := by
    simp only [functionText, String.append_assoc, String.append_right_inj, exists_eq']
  obtain ⟨tail, htail⟩ := htext
  refine ⟨returnType site, cs ++ tail.toList, ?_⟩
  simp [htail, hcs]

theorem functionText_ne {cs : List Char} (h : ∀ type : GlslType,
      cs.take (type.name.toList.length + 2) ≠ type.name.toList ++ [' ', 'c']) (site : Site) :
    functionText site ≠ String.ofList cs := by
  intro heq
  obtain ⟨type, rest, hrest⟩ := toList_functionText site
  rw [heq, String.toList_ofList] at hrest
  apply h type
  rw [hrest, List.take_length_add_append]
  rfl

theorem getLast?_functionText (site : Site) :
    (functionText site).toList.getLast? = some '\x7d' := by
  simp only [functionText, String.toList_append, List.getLast?_append]
  rfl

set_option maxRecDepth 4000 in
theorem orderly_functionText (site : Site) : Orderly [functionText site] := by
  apply orderly_singleton (getLast?_functionText site)
  simp only [calls, List.forall_mem_cons, List.not_mem_nil, false_implies, implies_true, and_true]
  and_intros <;> exact functionText_ne (fun type ↦ by cases type <;> decide) site

theorem orderly_supplies {t : NodeType} (ht : t ∈ all) (n : Node) (symbol : String) :
    Orderly (t.supplies n symbol) := by
  apply (orderly_helpers t ht).append
  rcases recipe_or_of_mem t ht with ⟨r, hr⟩ | rfl | rfl | rfl
  · rw [hr, (Recipe.emit_plain _ _).1]
    exact orderly_nil
  · exact orderly_functionText _
  · rw [emit_formula, helpers_formulaEmission]
    exact orderly_nil
  · exact orderly_nil

end Catalogue

namespace Scope

variable {s s' : Scope} {id : String}

def Remembers (s s' : Scope) : Prop :=
  ∀ id name, s.symbols.get? id = some name → s'.symbols.get? id = some name

theorem get?_symbol (s : Scope) (id : String) :
    (s.symbol id).2.symbols.get? id = some (s.symbol id).1 := by
  unfold symbol
  split
  · assumption
  · simp [Dict.get?_insert]

theorem remembers_symbol (s : Scope) (id : String) : s.Remembers (s.symbol id).2 := by
  intro id' name h
  unfold symbol
  split
  · exact h
  · rename_i hnone
    have hne : id' ≠ id := by
      intro he
      rw [he, hnone] at h
      cases h
    simp [Dict.get?_insert, hne, h]

theorem remembers_of_reserve {base stem : String} {keys : List String}
    (h : s.reserve base keys = (stem, s')) : s.Remembers s' := by
  intro id name hname
  cases h
  exact hname

theorem remembers_record (s : Scope) (e : Emission) : s.Remembers (s.record e) := fun _ _ h ↦ h

theorem symbol_of_get? {name : String} (h : s.symbols.get? id = some name) :
    (s.symbol id).1 = name := by
  simp [symbol, h]

end Scope

structure Supplied (instances : List (Node × NodeType)) (before : Scope) (texts : List String)
    (after : Scope) : Prop where
  remembers : before.Remembers after
  settled : ∀ p ∈ instances, (∃ name, after.symbols.get? p.1.id = some name) ∨
    ∀ symbol, p.2.supplies p.1 symbol = []
  texts_eq : texts = instances.flatMap fun p ↦ p.2.supplies p.1 (after.symbol p.1.id).1

namespace Supplied

variable {instances later : List (Node × NodeType)} {before middle after after' : Scope}
  {texts texts' : List String} {n : Node} {t : NodeType}

theorem refl (scope : Scope) : Supplied [] scope [] scope :=
  ⟨fun _ _ ↦ id, List.forall_mem_nil _, rfl⟩

theorem extend (h : Supplied instances before texts after) (ha : after.Remembers after') :
    Supplied instances before texts after' where
  remembers id name hname := ha id name (h.remembers id name hname)
  settled p hp := by
    rcases h.settled p hp with ⟨name, hname⟩ | hnone
    · exact .inl ⟨name, ha _ name hname⟩
    · exact .inr hnone
  texts_eq := by
    rw [h.texts_eq]
    apply List.flatMap_congr
    intro p hp
    rcases h.settled p hp with ⟨name, hname⟩ | hnone
    · rw [Scope.symbol_of_get? hname, Scope.symbol_of_get? (ha _ name hname)]
    · rw [hnone, hnone]

theorem trans (h : Supplied instances before texts middle)
    (h' : Supplied later middle texts' after) :
    Supplied (instances ++ later) before (texts ++ texts') after := by
  have hextend := h.extend h'.remembers
  refine ⟨hextend.remembers, List.forall_mem_append.2 ⟨hextend.settled, h'.settled⟩, ?_⟩
  rw [List.flatMap_append, ← hextend.texts_eq, ← h'.texts_eq]

theorem symbol (scope : Scope) (n : Node) (t : NodeType) :
    Supplied [(n, t)] scope (t.supplies n (scope.symbol n.id).1) (scope.symbol n.id).2 where
  remembers := scope.remembers_symbol n.id
  settled := List.forall_mem_singleton.2 (.inl ⟨_, scope.get?_symbol n.id⟩)
  texts_eq := by simp [Scope.symbol_of_get? (scope.get?_symbol n.id)]

/-- An instance without functions changes nothing. -/
theorem snoc (h : Supplied instances before texts after)
    (hnone : ∀ symbol, t.supplies n symbol = []) :
    Supplied (instances ++ [(n, t)]) before texts after where
  remembers := h.remembers
  settled := List.forall_mem_append.2
    ⟨h.settled, List.forall_mem_singleton.2 (.inr hnone)⟩
  texts_eq := by simp [h.texts_eq, hnone]

end Supplied

namespace Functions

theorem blocks_insertAll {texts : List String} (h : Functions)
    (hshown : ∀ text ∈ texts, Text.blank text = false) :
    (h.insertAll texts).blocks = mergeNew h.blocks texts := by
  induction texts generalizing h with
  | nil => rfl
  | cons text texts ih =>
    obtain ⟨htext, htexts⟩ := List.forall_mem_cons.1 hshown
    have hinsert : (h.insert text).blocks = addNew h.blocks text := by
      by_cases hmem : text ∈ h.blocks <;> simp [insert, accepts, contains, addNew, htext, hmem]
    rw [mergeNew_cons, ← hinsert]
    exact ih (h.insert text) htexts

end Functions

namespace Bench

variable {b : Bench}

theorem kept_supplied (hb : b.library = .builtin) : b.Kept
    (fun room id scope e scope' ↦ Supplied (b.instances room id) scope e.helpers scope')
    fun room done scope turn ↦ Supplied (done.flatMap fun s ↦ b.instances room s.2) scope
      turn.emission.helpers turn.scope where
  plain room stem wires scope hn ht := by
    rw [instances_of_stepPlan hn (stepPlan_of_not_loop hn ht),
      Catalogue.helpers_emission (mem_all hb hn), ← hn.id_eq]
    exact .symbol ..
  gap room stem wires scope hn ht hm := by
    rw [instances_of_stepPlan hn (stepPlan_of_gap hn hm)]
    exact (Supplied.refl scope).snoc (Catalogue.supplies_of_loop (mem_all hb hn) ht _)
  idle room stem wires scope hn ht hm hs := by
    have hnone := Catalogue.supplies_of_loop (mem_all hb hn) ht
    rw [instances_of_stepPlan hn (stepPlan_of_idle hn hs),
      (Catalogue.helpers_emission (mem_all hb hn) _ stem _ wires).trans (hnone _ _)]
    exact (Supplied.refl scope).snoc (hnone _)
  run stem wires hn ht hm hturns hrun := by
    rw [instances_of_run hn ht hm]
    exact hrun.snoc (Catalogue.supplies_of_loop (mem_all hb hn) ht _)
  start room scope carry := .refl scope
  skip k hc hm hturn := by
    rw [List.flatMap_append, List.flatMap_singleton,
      instances_of_unknown (not_known_of_find? hc hm), List.append_nil]
    exact hturn
  step k type hm hstem hturn he := by
    rw [List.flatMap_append, List.flatMap_singleton]
    exact ((hturn.extend (Scope.remembers_of_reserve hstem)).trans he).extend
      (Scope.remembers_record _ _)

end Bench

namespace Draft

open Catalogue

variable {g : Graph} {settings : Settings} {order : List String} {draft : Draft}

/-- All nodes that are emitted for an order have an instance. -/
theorem exists_instance_iff (hk : ∀ id ∈ order, Known g .builtin id)
    (h : ofOrder g .builtin settings order = .ok draft) (c : String) :
    (∃ p ∈ instances g .builtin settings order, p.1.id = c) ↔
      ∃ a ∈ order, ReflTransGen (bench g .builtin settings {}).Expands a c := by
  refine ofOrder_progress (fun done _ ↦ (∃ p ∈ instances g .builtin settings done, p.1.id = c) ↔
    ∃ a ∈ done, ReflTransGen (bench g .builtin settings {}).Expands a c) h (by simp [instances]) ?_
  intro done d d' a ha hadd hdone
  obtain ⟨n, t, hn⟩ := hk a ha
  obtain ⟨wires, stem, scope, e, scope', -, he, -⟩ := addNode_eq_ok hn hadd
  have hnode : _ ↔ ReflTransGen (bench g .builtin settings {}).Expands a c :=
    Bench.kept_instances.emit hn he c
  simp only [instances_snoc _ d, List.mem_append, List.mem_singleton, or_and_right, exists_or, hdone,
    hnode, exists_eq_left]

/-- The functions of a draft are those of its instances. -/
theorem exists_supplied (hk : ∀ id ∈ order, Known g .builtin id)
    (h : ofOrder g .builtin settings order = .ok draft) :
    ∃ texts, draft.helpers.blocks = distinct texts ∧
      Supplied (instances g .builtin settings order) {} texts draft.scope := by
  refine ofOrder_progress (fun done d ↦ ∃ texts, d.helpers.blocks = distinct texts ∧
    Supplied (instances g .builtin settings done) {} texts d.scope) h ?_ ?_
  · exact ⟨[], rfl, .refl {}⟩
  · intro done d d' a ha hadd ⟨texts, htexts, hdone⟩
    rcases addNode_cases hadd with ⟨hunknown, -⟩ |
      ⟨n, t, wires, stem, scope, e, scope', hn, -, hstem, he, rfl⟩
    · exact absurd (hk a ha) hunknown
    · have hnode := (Bench.kept_supplied (library_bench ..)).emit hn he
      have horderly : Orderly e.helpers := by
        rw [hnode.texts_eq]
        apply orderly_flatMap
        intro p hp
        have hpresent := Bench.present_of_mem_instances hp
        exact orderly_supplies (Bench.mem_all (library_bench ..) hpresent) ..
      refine ⟨texts ++ e.helpers, ?_, ?_⟩
      · rw [distinct, mergeNew_append, ← distinct, ← htexts]
        exact d.helpers.blocks_insertAll horderly.shown
      · rw [instances_snoc _ d]
        exact ((hdone.extend (Scope.remembers_of_reserve hstem)).trans hnode).extend
          (Scope.remembers_record _ _)

end Draft

open Catalogue in
/-- The functions of a shader: those of all instances in the order of their emission, each once and none
blank, and before the main function; what they call stands before them. -/
theorem compile_functions {g : Graph} {settings : Settings} {target : Target} {shader : Shader}
    (h : compile g .builtin settings target = .ok shader) :
    ∃ id plan draft terminal, target.node? g .builtin = some id ∧ schedule g .builtin id = .ok plan ∧
      Draft.ofOrder g .builtin settings plan.order = .ok draft ∧
      (∀ c, target.Emits g .builtin settings c ↔
        ∃ p ∈ Draft.instances g .builtin settings plan.order, p.1.id = c) ∧
      draft.helpers.blocks = distinct ((Draft.instances g .builtin settings plan.order).flatMap
        fun p ↦ p.2.supplies p.1 (draft.scope.symbol p.1.id).1) ∧
      (∀ block ∈ draft.helpers.blocks, Text.blank block = false) ∧
      (draft.helpers.blocks.map Text.trimEnd).Nodup ∧
      shader.source = "\n\n".intercalate (shownPart settings.prologue.header ++
        draft.helpers.blocks.map Text.trimEnd ++ shownPart settings.prologue.declarations ++
          [mainText (draft.blocks.map blockText) terminal]) ++ "\n" ∧
      Precedes hash22Helper gradientNoiseHelper draft.helpers.blocks ∧
      Precedes hash22Helper voronoiHelper draft.helpers.blocks ∧
      Precedes gradientNoiseHelper fbmHelper draft.helpers.blocks := by
  obtain ⟨id, plan, t, draft, terminal, hid, hplan, -, hdraft, -, rfl⟩ := compile_eq_ok h
  have hknown := (placed_of_schedule hplan).known
  obtain ⟨texts, hblocks, hsupplied⟩ := Draft.exists_supplied hknown hdraft
  have horderly : Orderly draft.helpers.blocks := by
    rw [hblocks, hsupplied.texts_eq]
    apply Orderly.distinct
    apply orderly_flatMap
    intro p hp
    obtain ⟨a, -, hp⟩ := List.mem_flatMap.1 hp
    have hpresent := Bench.present_of_mem_instances hp
    exact orderly_supplies (Bench.mem_all (Draft.library_bench ..) hpresent) ..
  refine ⟨id, plan, draft, terminal, hid, hplan, hdraft, ?_, ?_, horderly.shown, ?_, rfl, ?_, ?_, ?_⟩
  · intro c
    exact (Target.exists_scheduled_iff hid hplan).trans
      (Draft.exists_instance_iff hknown hdraft c).symm
  · rw [hblocks, ← hsupplied.texts_eq]
  · rw [horderly.map_trimEnd, hblocks]
    exact nodup_distinct texts
  · exact horderly.ordered (hash22Helper, gradientNoiseHelper) (by simp [calls])
  · exact horderly.ordered (hash22Helper, voronoiHelper) (by simp [calls])
  · exact horderly.ordered (gradientNoiseHelper, fbmHelper) (by simp [calls])

def Sample.textured : Graph where
  nodes := [
    { id := "sum", typeName := "Add",
      inputs := [{ key := "a", type := .float, wire := some ⟨"cloud", "value"⟩ },
        { key := "b", type := .float, wire := some ⟨"loop", "result"⟩ }] },
    { id := "cloud", typeName := "Fbm" }, Sample.loop "loop" ["cells", "f"],
    { id := "cells", typeName := "Voronoi" }, { id := "f", typeName := "CustomFunction" }]

open Catalogue in
theorem compile_functions_textured :
    ∃ shader plan draft, compile Sample.textured .builtin {} (.preview "sum") = .ok shader ∧
      schedule Sample.textured .builtin "sum" = .ok plan ∧
      plan.order = ["cloud", "loop", "sum"] ∧
      Draft.ofOrder Sample.textured .builtin {} plan.order = .ok draft ∧
      draft.helpers.blocks = distinct ((Draft.instances Sample.textured .builtin {} plan.order).flatMap
        fun p ↦ p.2.supplies p.1 (draft.scope.symbol p.1.id).1) ∧
      (draft.helpers.blocks.map Text.trimEnd).Nodup ∧
      Precedes hash22Helper voronoiHelper draft.helpers.blocks ∧
      Precedes gradientNoiseHelper fbmHelper draft.helpers.blocks := by
  have hok : (compile Sample.textured .builtin {} (.preview "sum")).isOk := by decide +kernel
  have horder : (schedule Sample.textured .builtin "sum").map (·.order) =
      .ok ["cloud", "loop", "sum"] := by decide +kernel
  obtain ⟨shader, hshader⟩ := exists_of_isOk hok
  obtain ⟨id, plan, draft, terminal, hid, hplan, hdraft, -, hblocks, -, hnodup, -, -, hvoronoi, hfbm⟩ :=
    compile_functions hshader
  obtain rfl : "sum" = id := Option.some.inj hid
  exact ⟨shader, plan, draft, hshader, hplan, of_map_eq_ok horder hplan, hdraft, hblocks, hnodup,
    hvoronoi, hfbm⟩

end NodeShader

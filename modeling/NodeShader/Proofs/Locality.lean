import NodeShader.Proofs.Appearance
import NodeShader.Proofs.Nesting
import Mathlib.Data.List.Find

namespace NodeShader

open Relation Schedule

/-- The graphs find the same nodes for the ids that are `near`, and from these nodes wires and steps
go to such ids only. -/
structure Agree (lib : Library) (g₁ g₂ : Graph) (near : String → Prop) : Prop where
  find? : ∀ id, near id → g₁.find? id = g₂.find? id
  wire : ∀ a n t, near a → Present g₁ lib a n t → ∀ i ∈ n.inlets t, ∀ w, i.wire = some w →
    near w.node
  step : ∀ a n t, near a → Present g₁ lib a n t → t.role = .loop → ∀ id ∈ n.steps, near id

namespace Agree

variable {lib : Library} {g₁ g₂ : Graph} {near : String → Prop} {a b c : String} {n : Node}
  {t : NodeType} {room₁ room₂ : Nat}

theorem present (h : Agree lib g₁ g₂ near) (ha : near a) (hn : Present g₁ lib a n t) :
    Present g₂ lib a n t := ⟨(h.find? a ha).symm.trans hn.node, hn.type⟩

theorem known (h : Agree lib g₁ g₂ near) (ha : near a) (hk : Known g₁ lib a) : Known g₂ lib a := by
  obtain ⟨n, t, hn⟩ := hk
  exact ⟨n, t, h.present ha hn⟩

theorem near_of_runs (h : Agree lib g₁ g₂ near) (ha : near a)
    (hr : ReflTransGen (Runs g₁ lib) a b) : near b := by
  induction hr with
  | refl => exact ha
  | tail _ hr ih =>
    obtain ⟨n, t, hn, ht, hs, -⟩ := hr
    exact h.step _ n t ih hn ht _ hs

theorem near_of_dependsOn (h : Agree lib g₁ g₂ near) (ha : near a)
    (hd : ReflTransGen (DependsOn g₁ lib) a b) : near b := by
  induction hd with
  | refl => exact ha
  | tail _ hd ih =>
    rcases hd.reads_or_nests with ⟨c, hc, n, t, hn, ⟨i, hi, w, hw, rfl⟩, -⟩ | hn
    · exact h.wire c n t (h.near_of_runs ih hc) hn i hi w hw
    · exact h.near_of_runs ih (runs_of_nests hn.to_reflTransGen)

theorem sources_eq (h : Agree lib g₁ g₂ near) (ha : near a) (hn : Present g₁ lib a n t) :
    sources g₁ n t = sources g₂ n t := by
  apply List.filterMap_congr
  intro i hi
  cases hw : i.wire with
  | none => rfl
  | some w => exact h.find? w.node (h.wire a n t ha hn i hi w hw)

theorem stepReads_eq (h : Agree lib g₁ g₂ near) (hc : near c) {found : List Node × List String}
    {inner₁ inner₂ : Node → List String → List Node × List String}
    (hi : ∀ m u, Present g₁ lib c m u → u.role = .loop → c ∉ found.2 →
      inner₁ m (c :: found.2) = inner₂ m (c :: found.2)) :
    stepReads g₁ lib inner₁ found c = stepReads g₂ lib inner₂ found c := by
  simp only [stepReads, ← h.find? c hc]
  cases hm : g₁.find? c with
  | none => rfl
  | some m =>
    cases hu : lib.find? m.typeName with
    | none => simp only [hu]
    | some u =>
      have hmu : Present g₁ lib c m u := ⟨hm, hu⟩
      simp only [hu, h.sources_eq hc hmu, hmu.id_eq]
      split
      · rename_i hl
        split
        · rfl
        · rename_i hnew
          rw [hi m u hmu hl hnew]
      · rfl

theorem foldl_stepReads_eq (h : Agree lib g₁ g₂ near) {found : List Node × List String}
    (hi : ∀ c m u seen, near c → Present g₁ lib c m u → u.role = .loop →
      HasRoom g₁ lib room₁ seen → HasRoom g₂ lib room₂ seen →
      loopReads g₁ lib room₁ m seen = loopReads g₂ lib room₂ m seen)
    (h₁ : HasRoom g₁ lib (room₁ + 1) found.2) (h₂ : HasRoom g₂ lib (room₂ + 1) found.2)
    {steps : List String} (hsteps : ∀ c ∈ steps, near c) :
    steps.foldl (stepReads g₁ lib (loopReads g₁ lib room₁)) found =
      steps.foldl (stepReads g₂ lib (loopReads g₂ lib room₂)) found := by
  induction steps generalizing found with
  | nil => rfl
  | cons c steps ih =>
    have hc := hsteps c List.mem_cons_self
    have hstep : stepReads g₁ lib (loopReads g₁ lib room₁) found c =
        stepReads g₂ lib (loopReads g₂ lib room₂) found c := by
      apply h.stepReads_eq hc
      intro m u hm hu hnew
      exact hi c m u _ hc hm hu (h₁.cons ⟨m, u, hm, hu⟩ hnew)
        (h₂.cons ⟨m, u, h.present hc hm, hu⟩ hnew)
    have h₁' := h₁.stepReads (fun n seen hseen ↦ hseen.loopReads n) c
    have h₂' := h₂.stepReads (fun n seen hseen ↦ hseen.loopReads n) c
    rw [← hstep] at h₂'
    rw [List.foldl_cons, List.foldl_cons, ← hstep]
    exact ih h₁' h₂' fun d hd ↦ hsteps d (List.mem_cons_of_mem c hd)

/-- The steps of a loop in graphs of different sizes, each searched with room enough. -/
theorem loopReads_eq (h : Agree lib g₁ g₂ near) {seen : List String} (ha : near a)
    (hn : Present g₁ lib a n t) (ht : t.role = .loop) (h₁ : HasRoom g₁ lib room₁ seen)
    (h₂ : HasRoom g₂ lib room₂ seen) :
    loopReads g₁ lib room₁ n seen = loopReads g₂ lib room₂ n seen := by
  induction room₁ generalizing room₂ seen a n t with
  | zero => exact absurd h₁.pos (lt_irrefl 0)
  | succ r₁ ih =>
    obtain ⟨r₂, rfl⟩ := Nat.exists_eq_add_one.2 h₂.pos
    apply h.foldl_stepReads_eq _ h₁ h₂ (h.step a n t ha hn ht)
    intro c m u seen hc hm hu hroom₁ hroom₂
    exact ih hc hm hu hroom₁ hroom₂

theorem reads_eq (h : Agree lib g₁ g₂ near) (ha : near a) (hn : Present g₁ lib a n t) :
    reads g₁ lib n = reads g₂ lib n := by
  simp only [reads, hn.type, hn.id_eq, h.sources_eq ha hn]
  split
  · rename_i ht
    rw [h.loopReads_eq ha hn ht (.singleton ⟨n, t, hn, ht⟩) (.singleton ⟨n, t, h.present ha hn, ht⟩)]
  · rfl

theorem length_le (h : Agree lib g₁ g₂ near) {ids : List String} (hnodup : ids.Nodup)
    (hids : ∀ id ∈ ids, near id ∧ Known g₁ lib id) :
    ids.length ≤ g₁.nodes.length ∧ ids.length ≤ g₂.nodes.length := by
  constructor
  · exact length_le_of_known hnodup fun id hid ↦ (hids id hid).2
  · exact length_le_of_known hnodup fun id hid ↦ h.known (hids id hid).1 (hids id hid).2

theorem enter_eq (h : Agree lib g₁ g₂ near) (hb : near b) {path : List String} {s : Schedule}
    {inner₁ inner₂ : List String → Node → Schedule → Except Fault Schedule}
    (hi : ∀ m, g₁.find? b = some m → b ∉ path → inner₁ path m s = inner₂ path m s) :
    enter g₁ inner₁ path s b = enter g₂ inner₂ path s b := by
  simp only [enter, ← h.find? b hb]
  split
  · rfl
  · split
    · rfl
    · rename_i hnew
      cases hm : g₁.find? b with
      | none => rfl
      | some m => exact hi m hm hnew

/-- The search from a node, with room for all nodes that are not under way. -/
theorem visit_eq (h : Agree lib g₁ g₂ near) {path : List String} (hn : Present g₁ lib a n t)
    (hnodup : (path ++ [a]).Nodup) (hpath : ∀ id ∈ path ++ [a], near id ∧ Known g₁ lib id)
    (h₁ : g₁.nodes.length ≤ room₁ + path.length) (h₂ : g₂.nodes.length ≤ room₂ + path.length)
    (s : Schedule) : visit g₁ lib room₁ path n s = visit g₂ lib room₂ path n s := by
  induction room₁ generalizing room₂ path a n t s with
  | zero =>
    have hlen := h.length_le hnodup hpath
    simp only [List.length_append, List.length_singleton] at hlen
    omega
  | succ r₁ ih =>
    have hlen := h.length_le hnodup hpath
    simp only [List.length_append, List.length_singleton] at hlen
    obtain ⟨r₂, rfl⟩ : ∃ r₂, room₂ = r₂ + 1 := ⟨room₂ - 1, by omega⟩
    obtain ⟨ha, -⟩ := hpath a (by simp)
    have henter : ∀ (s : Schedule), ∀ b ∈ dependencies g₁ lib n,
        enter g₁ (visit g₁ lib r₁) (path ++ [a]) s b =
          enter g₂ (visit g₂ lib r₂) (path ++ [a]) s b := by
      intro s b hb
      have hd : DependsOn g₁ lib a b := ⟨n, t, hn, hb⟩
      have hnear := h.near_of_dependsOn ha (.single hd)
      apply h.enter_eq hnear
      intro m hm hnew
      obtain ⟨m', u, hmu⟩ := hd.known
      obtain rfl := Option.some.inj (hm.symm.trans hmu.node)
      have hnodup' : (path ++ [a] ++ [b]).Nodup := by simpa using List.Nodup.concat hnew hnodup
      have hpath' : ∀ id ∈ path ++ [a] ++ [b], near id ∧ Known g₁ lib id := by
        intro id hid
        rcases List.mem_append.1 hid with hid | hid
        · exact hpath id hid
        · rw [List.mem_singleton.1 hid]
          exact ⟨hnear, hd.known⟩
      apply ih hmu hnodup' hpath'
      all_goals simp only [List.length_append, List.length_singleton]
      all_goals omega
    have hreads := h.reads_eq ha hn
    have hdeps : dependencies g₁ lib n = dependencies g₂ lib n := by
      rw [dependencies, dependencies, hreads]
    have hunknowns : unknowns g₁ lib n = unknowns g₂ lib n := by
      rw [unknowns, unknowns, hreads]
    simp only [visit, hn.id_eq, hunknowns, foldlM_congr henter]
    rw [hdeps]

theorem schedule_eq (h : Agree lib g₁ g₂ near) (ha : near a) :
    schedule g₁ lib a = schedule g₂ lib a := by
  simp only [schedule, ← h.find? a ha]
  cases hn : g₁.find? a with
  | none => rfl
  | some n =>
    dsimp only
    split
    · rename_i hk
      obtain ⟨t, ht⟩ := isKnown_iff.1 hk
      apply h.visit_eq ⟨hn, ht⟩ (List.nodup_singleton a) _ le_rfl le_rfl
      intro id hid
      obtain rfl := List.mem_singleton.1 hid
      exact ⟨ha, n, t, hn, ht⟩
    · rfl

section

variable {bench : Bench} {g : Graph}

theorem missingSteps_eq (h : Agree bench.library bench.graph g near) (ha : near a)
    (hn : Present bench.graph bench.library a n t) (ht : t.role = .loop) :
    bench.missingSteps n = { bench with graph := g }.missingSteps n := by
  apply List.filter_congr
  intro id hid
  rw [h.find? id (h.step a n t ha hn ht id hid)]

theorem takeStep_eq (h : Agree bench.library bench.graph g near) (hc : near c)
    {unroll₁ unroll₂ : Emitter}
    (hu : ∀ m u, Present bench.graph bench.library c m u → u.role = .loop →
      unroll₁ m u = unroll₂ m u)
    (type : GlslType) (stem : String) (turn : Bench.Turn) (k : Nat) :
    bench.takeStep unroll₁ type stem turn k c =
      { bench with graph := g }.takeStep unroll₂ type stem turn k c := by
  simp only [Bench.takeStep, ← h.find? c hc]
  cases hm : bench.graph.find? c with
  | none => rfl
  | some m =>
    dsimp only
    split
    · rfl
    · rename_i u hmu
      rw [Bench.instantiate_congr (hu m u ⟨hm, hmu⟩)]
      rfl

theorem unroll_eq (h : Agree bench.library bench.graph g near) (room : Nat) (ha : near a)
    (hn : Present bench.graph bench.library a n t) (ht : t.role = .loop) :
    bench.unroll room n t = { bench with graph := g }.unroll room n t := by
  induction room generalizing a n t with
  | zero => rfl
  | succ room ih =>
    funext stem wires scope
    have hfold : ∀ type turn iterations,
        (Bench.plan iterations n.steps).foldlM
          (fun turn s ↦ bench.takeStep (bench.unroll room) type stem turn s.1 s.2) turn =
        (Bench.plan iterations n.steps).foldlM (fun turn s ↦ { bench with graph := g }.takeStep
          ({ bench with graph := g }.unroll room) type stem turn s.1 s.2) turn := by
      intro type turn iterations
      refine foldlM_congr (fun turn s hs ↦ ?_) turn
      have hnear := h.step a n t ha hn ht s.2 (Bench.mem_plan.1 hs).2
      apply h.takeStep_eq hnear
      intro m u hm hu
      exact ih hnear hm hu
    simp only [Bench.unroll, hfold, h.missingSteps_eq ha hn ht]
    rfl

end

theorem addNode_eq (h : Agree lib g₁ g₂ near) (ha : near a) (settings : Settings) (room : Nat)
    (d : Draft) :
    Draft.addNode g₁ lib settings room d a = Draft.addNode g₂ lib settings room d a := by
  simp only [Draft.addNode, ← h.find? a ha]
  cases hn : g₁.find? a with
  | none => rfl
  | some n =>
    dsimp only
    split
    · rfl
    · rename_i t ht
      have hbench : Agree (Draft.bench g₁ lib settings d).library
        (Draft.bench g₁ lib settings d).graph g₂ near := h
      have hemit : (Draft.bench g₁ lib settings d).emit room n t =
          (Draft.bench g₂ lib settings d).emit room n t := by
        apply Bench.instantiate_congr
        intro hl
        exact hbench.unroll_eq room ha ⟨hn, ht⟩ hl
      rw [hemit]
      rfl

theorem ofOrder_eq (h : Agree lib g₁ g₂ near) (ha : near a) (settings : Settings) {s : Schedule}
    (hs : schedule g₁ lib a = .ok s) :
    Draft.ofOrder g₁ lib settings s.order = Draft.ofOrder g₂ lib settings s.order := by
  have hextends := extends_of_schedule hs
  have hp₁ := hextends.placed
  have hp₂ := placed_of_schedule ((h.schedule_eq ha).symm.trans hs)
  apply foldlM_congr
  intro d id hid
  have hnear := h.near_of_dependsOn ha (hextends.reached id hid List.not_mem_nil)
  calc Draft.addNode g₁ lib settings (g₁.nodes.length + 1) d id
    _ = Draft.addNode g₁ lib settings (max (loopCount g₁ lib) (loopCount g₂ lib)) d id :=
      Draft.addNode_congr (hp₁.nestsWithin hid) (loopCount_le g₁ lib) (le_max_left _ _) d
    _ = Draft.addNode g₂ lib settings (max (loopCount g₁ lib) (loopCount g₂ lib)) d id :=
      h.addNode_eq hnear settings _ d
    _ = Draft.addNode g₂ lib settings (g₂.nodes.length + 1) d id :=
      Draft.addNode_congr (hp₂.nestsWithin hid) (le_max_right _ _) (loopCount_le g₂ lib) d

theorem compile_eq (h : Agree lib g₁ g₂ near) (ha : near a) (settings : Settings) :
    compile g₁ lib settings (.preview a) = compile g₂ lib settings (.preview a) := by
  simp only [compile, Target.node?, orFault, bind, Except.bind]
  rw [← h.schedule_eq ha, ← h.find? a ha]
  cases hs : schedule g₁ lib a with
  | error f => rfl
  | ok s =>
    dsimp only
    rw [h.ofOrder_eq ha settings hs]

end Agree

section

variable {g₁ g₂ : Graph}

theorem Graph.find?_of_perm (hids : (g₁.nodes.map (·.id)).Nodup) (hperm : g₁.nodes.Perm g₂.nodes)
    (id : String) : g₁.find? id = g₂.find? id := by
  apply List.find?_eq_find?_of_perm hperm
  intro m ⟨hm, hmid⟩ n ⟨hn, hnid⟩
  exact List.inj_on_of_nodup_map hids hm hn ((beq_iff_eq.1 hmid).trans (beq_iff_eq.1 hnid).symm)

/-- If no two nodes share an id, their order is nothing to the shader of one of them. -/
theorem compile_preview_of_perm (hids : (g₁.nodes.map (·.id)).Nodup)
    (hperm : g₁.nodes.Perm g₂.nodes) (lib : Library) (settings : Settings) (target : String) :
    compile g₁ lib settings (.preview target) = compile g₂ lib settings (.preview target) := by
  have h : Agree lib g₁ g₂ fun _ ↦ True :=
    ⟨fun id _ ↦ Graph.find?_of_perm hids hperm id, by simp, by simp⟩
  exact h.compile_eq trivial settings

end

/-- The ids that a target leads to: its own, and for each node of known type those where its wires
begin and, if it is a loop, those of its steps. -/
inductive LeadsTo (g : Graph) (lib : Library) (target : String) : String → Prop
  | self : LeadsTo g lib target target
  | wire {a : String} {n : Node} {t : NodeType} {i : Inlet} {w : Wire} :
      LeadsTo g lib target a → Present g lib a n t → i ∈ n.inlets t → i.wire = some w →
      LeadsTo g lib target w.node
  | step {a id : String} {n : Node} {t : NodeType} :
      LeadsTo g lib target a → Present g lib a n t → t.role = .loop → id ∈ n.steps →
      LeadsTo g lib target id

variable {g₁ g₂ : Graph} {lib : Library} {target id : String}

theorem present_of_bare {g : Graph} {n : Node} {t : NodeType} (h : Present g.bare lib id n t) :
    ∃ m, Present g lib id m t ∧ n = m.bare := by
  obtain ⟨hn, ht⟩ := h
  rw [Graph.find?_bare] at hn
  obtain ⟨m, hm, rfl⟩ := Option.map_eq_some_iff.1 hn
  exact ⟨m, ⟨hm, ht⟩, rfl⟩

theorem find?_bare_eq (h : Option.Rel Node.Alike (g₁.find? id) (g₂.find? id)) :
    g₁.bare.find? id = g₂.bare.find? id := by
  rw [Graph.find?_bare, Graph.find?_bare]
  generalize h₁ : g₁.find? id = m, h₂ : g₂.find? id = n at h ⊢
  cases h with
  | none => rfl
  | some h =>
    have hid := (Graph.id_of_find? h₁).trans (Graph.id_of_find? h₂).symm
    rw [Option.map_some, Option.map_some, h.bare_eq hid]

theorem agree_bare (h : ∀ id, LeadsTo g₁ lib target id →
    Option.Rel Node.Alike (g₁.find? id) (g₂.find? id)) :
    Agree lib g₁.bare g₂.bare (LeadsTo g₁ lib target) where
  find? id hid := find?_bare_eq (h id hid)
  wire a n t ha hn i hi w hw := by
    obtain ⟨m, hm, rfl⟩ := present_of_bare hn
    rw [(m.bare_alike.resembles rfl).inlets] at hi
    exact .wire ha hm hi hw
  step a n t ha hn ht id hid := by
    obtain ⟨m, hm, rfl⟩ := present_of_bare hn
    exact .step ha hm ht hid

theorem compile_preview_of_alike (hlib : lib.IgnoresLayout) (h : ∀ id, LeadsTo g₁ lib target id →
    Option.Rel Node.Alike (g₁.find? id) (g₂.find? id)) (settings : Settings) :
    compile g₁ lib settings (.preview target) = compile g₂ lib settings (.preview target) := by
  rw [← compile_bare hlib g₁, ← compile_bare hlib g₂]
  exact (agree_bare h).compile_eq .self settings

theorem Library.ignoresLayout_of_builtin
    (h : ∀ name t, lib.find? name = some t → ∃ u ∈ Catalogue.all, t.generator = u.generator) :
    lib.IgnoresLayout := by
  intro name t ht
  obtain ⟨u, hu, hgenerator⟩ := h name t ht
  have hemit : t.emit = u.emit := by rw [NodeType.emit, hgenerator, NodeType.emit]
  have hlayout := (Catalogue.discreet_of_mem u hu).ignoresLayout
  intro site n hid hn
  rw [hemit]
  exact hlayout site n hid hn

/-- Where the generators ignore layout, and the built-in ones do in whatever types they stand, the shader
of a node depends on nothing but the nodes that it leads to, and not on what of these only the editor
shows. With any generators it does not depend on the order of nodes with different ids. -/
theorem compile_preview_local (g₁ g₂ : Graph) (lib : Library) (settings : Settings) (target : String) :
    ((∀ name t, lib.find? name = some t → ∃ u ∈ Catalogue.all, t.generator = u.generator) →
      lib.IgnoresLayout) ∧
    (lib.IgnoresLayout → (∀ id, LeadsTo g₁ lib target id →
        Option.Rel Node.Alike (g₁.find? id) (g₂.find? id)) →
      compile g₁ lib settings (.preview target) = compile g₂ lib settings (.preview target)) ∧
    ((g₁.nodes.map (·.id)).Nodup → g₁.nodes.Perm g₂.nodes →
      compile g₁ lib settings (.preview target) = compile g₂ lib settings (.preview target)) :=
  ⟨Library.ignoresLayout_of_builtin, fun hlib h ↦ compile_preview_of_alike hlib h settings,
    fun hids hperm ↦ compile_preview_of_perm hids hperm lib settings target⟩

def Sample.drawn : Graph where
  nodes := [Sample.sum "out" "outer" "x", Sample.loop "outer" ["s"], Sample.sum "s" "x" "gone",
    Sample.sum "x" "gone" "gone"]

def Sample.redrawn : Graph where
  nodes := [Sample.sum "far" "out" "outer", Sample.sum "x" "gone" "gone",
    { Sample.loop "outer" ["s"] with position := { x := .ofInt 3 } },
    { Sample.sum "s" "x" "gone" with
      inputs := [{ key := "a", type := .float, label := "Left", wire := some ⟨"x", "out"⟩ },
        { key := "b", type := .float, label := "Right", wire := some ⟨"gone", "out"⟩ }] },
    Sample.sum "out" "outer" "x"]

theorem compile_preview_local_redrawn :
    (∃ shader, compile Sample.drawn .builtin {} (.preview "out") = .ok shader) ∧
      Library.builtin.IgnoresLayout ∧
      compile Sample.drawn .builtin {} (.preview "out") =
        compile Sample.redrawn .builtin {} (.preview "out") ∧
      compile Sample.drawn .builtin {} (.preview "out") =
        compile ⟨Sample.drawn.nodes.reverse⟩ .builtin {} (.preview "out") := by
  have hwires : ∀ n ∈ Sample.drawn.nodes, ∀ t, ∀ i ∈ n.inlets t, ∀ w, i.wire = some w →
      w.node ∈ ["out", "outer", "s", "x", "gone"] := by
    simp [Sample.drawn, Sample.sum, Sample.loop, Node.inlets]
  have hsteps : ∀ n ∈ Sample.drawn.nodes, ∀ id ∈ n.steps,
      id ∈ ["out", "outer", "s", "x", "gone"] := by decide
  have hids : ∀ id, LeadsTo Sample.drawn .builtin "out" id →
      id ∈ ["out", "outer", "s", "x", "gone"] := by
    intro id hid
    induction hid with
    | self => simp
    | wire _ hn hi hw => exact hwires _ (Graph.mem_of_find? hn.node) _ _ hi _ hw
    | step _ hn _ hid => exact hsteps _ (Graph.mem_of_find? hn.node) _ hid
  obtain ⟨hlayout, hlocal, -⟩ :=
    compile_preview_local Sample.drawn Sample.redrawn .builtin {} "out"
  obtain ⟨-, -, hperm⟩ :=
    compile_preview_local Sample.drawn ⟨Sample.drawn.nodes.reverse⟩ .builtin {} "out"
  have hbuiltin := hlayout fun name t ht ↦ ⟨t, Library.mem_of_find?_ofList ht, rfl⟩
  have hok : (compile Sample.drawn .builtin {} (.preview "out")).isOk := by decide +kernel
  refine ⟨exists_of_isOk hok, hbuiltin, hlocal hbuiltin fun id hid ↦ ?_,
    hperm (by decide) (List.reverse_perm _).symm⟩
  have hmem := hids id hid
  simp only [List.mem_cons, List.not_mem_nil, or_false] at hmem
  rcases hmem with rfl | rfl | rfl | rfl | rfl
  · exact .some ⟨rfl, rfl, rfl, rfl⟩
  · exact .some ⟨rfl, rfl, rfl, rfl⟩
  · exact .some ⟨rfl, rfl, rfl, rfl⟩
  · exact .some ⟨rfl, rfl, rfl, rfl⟩
  · exact .none

/-- A type whose code shows where the node stands and how its output is labelled. -/
def Sample.signpost : NodeType where
  name := "Signpost"
  category := "Sample"
  generator := .code fun site ↦ Emission.declare {} site "out" .float
    (" + ".intercalate (Glsl.floatLiteral site.node.position.x :: site.node.outputs.map (·.label)))

def Sample.post (x : Binary32) (label : String) : Graph where
  nodes := [
    { id := "s", typeName := "Signpost", position := { x := x },
      outputs := [{ key := "out", type := .float, label := label }] }]

/-- A generator that looks at places and labels shows them in the shader. -/
theorem compile_preview_placed :
    let lib := Library.ofList [Sample.signpost]
    let settings : Settings := { prologue := { header := "", declarations := "", fragColor := "c" } }
    (∀ x label id, LeadsTo (Sample.post .zero "A") lib "s" id →
      Option.Rel Node.Alike ((Sample.post .zero "A").find? id) ((Sample.post x label).find? id)) ∧
    compile (Sample.post .zero "A") lib settings (.preview "s") ≠
      compile (Sample.post (.ofInt 1) "A") lib settings (.preview "s") ∧
    compile (Sample.post .zero "A") lib settings (.preview "s") ≠
      compile (Sample.post .zero "B") lib settings (.preview "s") := by
  intro lib settings
  have hsource : ∀ g h, (compile g lib settings (.preview "s")).map (·.source) ≠
      (compile h lib settings (.preview "s")).map (·.source) →
      compile g lib settings (.preview "s") ≠ compile h lib settings (.preview "s") :=
    fun g h hne heq ↦ hne (by rw [heq])
  have hwires : ∀ n ∈ (Sample.post .zero "A").nodes, ∀ p, ∀ i ∈ n.inlets p, i.wire = none := by
    simp [Sample.post, Node.inlets]
  have hsteps : ∀ n ∈ (Sample.post .zero "A").nodes, n.steps = [] := by decide
  have hids : ∀ id, LeadsTo (Sample.post .zero "A") lib "s" id → id = "s" := by
    intro id hid
    cases hid with
    | self => rfl
    | wire _ hn hi hw =>
      rw [hwires _ (Graph.mem_of_find? hn.node) _ _ hi] at hw
      cases hw
    | step _ hn _ hid =>
      rw [hsteps _ (Graph.mem_of_find? hn.node)] at hid
      cases hid
  refine ⟨fun x label id hid ↦ ?_, hsource _ _ (by decide +kernel), hsource _ _ (by decide +kernel)⟩
  obtain rfl := hids id hid
  exact .some ⟨rfl, rfl, rfl, rfl⟩

end NodeShader

import NodeShader.Proofs.Compatibility

namespace NodeShader

open Relation Schedule

namespace Graph

theorem find?_of_mem {g : Graph} {n : Node} (hids : (g.nodes.map (·.id)).Nodup)
    (hn : n ∈ g.nodes) : g.find? n.id = some n := by
  have hsome : (g.find? n.id).isSome := by
    rw [find?, List.find?_isSome]
    exact ⟨n, hn, by simp⟩
  obtain ⟨m, hm⟩ := Option.isSome_iff_exists.1 hsome
  obtain rfl : m = n := List.inj_on_of_nodup_map hids (mem_of_find? hm) hn (id_of_find? hm)
  exact hm

end Graph

theorem Ends.orFault {α : Type} {x : Option α} {a : α} {f : Fault} {bad : Fault → Prop}
    (h : x = some a) : Ends (orFault f x) (fun b ↦ a = b) bad := by
  rw [h]
  rfl

namespace Target

section

variable (g : Graph) (lib : Library)

/-- There is something to show: an output, or the node to preview with a known type. -/
def Resolves : Target → Prop
  | .output => ∃ n ∈ g.nodes, ∃ t alpha, lib.find? n.typeName = some t ∧ t.role = .output alpha
  | .preview id => Known g lib id

def IsAcyclic (target : Target) : Prop :=
  ∀ id ids, target.node? g lib = some id → schedule g lib id ≠ .error (.cycle ids)

/-- The node is emitted for the target: it is scheduled, or at whatever depth a step of a loop that
is. -/
def Emits (settings : Settings) (target : Target) (c : String) : Prop :=
  ∃ id s a, target.node? g lib = some id ∧ schedule g lib id = .ok s ∧ a ∈ s.order ∧
    ReflTransGen (Draft.bench g lib settings {}).Expands a c

end

variable {g : Graph} {lib : Library} {settings : Settings} {target : Target} {id : String}

theorem exists_scheduled_iff {plan : Schedule} {p : String → Prop}
    (hid : target.node? g lib = some id)
    (hplan : schedule g lib id = .ok plan) :
    (∃ id s a, target.node? g lib = some id ∧ schedule g lib id = .ok s ∧ a ∈ s.order ∧ p a) ↔
      ∃ a ∈ plan.order, p a := by
  constructor
  · intro ⟨id', s, a, hid', hs, ha⟩
    obtain rfl := Option.some.inj (hid.symm.trans hid')
    obtain rfl := Except.ok.inj (hplan.symm.trans hs)
    exact ⟨a, ha⟩
  · intro ⟨a, ha⟩
    exact ⟨id, plan, a, hid, hplan, ha⟩

theorem isOutput_iff (n : Node) :
    ((lib.find? n.typeName).any fun t ↦ t.role matches .output _) = true ↔
      ∃ t alpha, lib.find? n.typeName = some t ∧ t.role = .output alpha := by
  cases lib.find? n.typeName with
  | none => simp
  | some t => cases ht : t.role <;> simp [ht]

theorem outputNode?_eq_some (h : g.outputNode? lib = some id) :
    ∃ n ∈ g.nodes, n.id = id ∧ ∃ t alpha, lib.find? n.typeName = some t ∧ t.role = .output alpha := by
  obtain ⟨n, hn, rfl⟩ := Option.map_eq_some_iff.1 h
  have houtput := List.find?_some hn
  exact ⟨n, List.mem_of_find?_eq_some hn, rfl, (isOutput_iff n).1 houtput⟩

theorem resolves_iff (hids : (g.nodes.map (·.id)).Nodup) :
    target.Resolves g lib ↔ ∃ id, target.node? g lib = some id ∧ Known g lib id := by
  cases target with
  | preview node =>
    constructor
    · intro h
      exact ⟨node, rfl, h⟩
    · intro ⟨id, hid, hk⟩
      cases hid
      exact hk
  | output =>
    constructor
    · intro ⟨n, hn, houtput⟩
      have hsome : (g.outputNode? lib).isSome := by
        rw [Graph.outputNode?, Option.isSome_map, List.find?_isSome]
        exact ⟨n, hn, (isOutput_iff n).2 houtput⟩
      obtain ⟨id, hid⟩ := Option.isSome_iff_exists.1 hsome
      obtain ⟨m, hm, rfl, t, alpha, ht, -⟩ := outputNode?_eq_some hid
      exact ⟨m.id, hid, m, t, Graph.find?_of_mem hids hm, ht⟩
    · intro ⟨id, hid, _⟩
      obtain ⟨n, hn, -, houtput⟩ := outputNode?_eq_some hid
      exact ⟨n, hn, houtput⟩

theorem compile_of_not_resolves (h : ¬ target.Resolves g lib) :
    compile g lib settings target = .error target.missing := by
  cases target with
  | output =>
    cases hid : g.outputNode? lib with
    | none => simp [compile, Target.node?, hid, orFault, bind, Except.bind]
    | some id =>
      obtain ⟨n, hn, -, houtput⟩ := outputNode?_eq_some hid
      exact absurd ⟨n, hn, houtput⟩ h
  | preview node =>
    cases hn : g.find? node with
    | none => simp [compile, Target.node?, schedule, hn, orFault, missing, bind, Except.bind]
    | some n =>
      have ht : lib.find? n.typeName = none := by
        cases ht : lib.find? n.typeName with
        | none => rfl
        | some t => exact absurd ⟨n, t, hn, ht⟩ h
      have hk : isKnown lib n = false := by
        rw [Bool.eq_false_iff]
        intro hk
        obtain ⟨t, ht'⟩ := isKnown_iff.1 hk
        rw [ht] at ht'
        cases ht'
      simp [compile, Target.node?, schedule, hn, hk, ht, orFault, missing, bind, Except.bind]

/-- Of a node that can be shown the shader is made, or it leads into a circle, or some wire that is
looked up does not fit. -/
theorem compile_ends (hlib : ∀ name t, lib.find? name = some t → Catalogue.Steady t)
    (hid : target.node? g lib = some id) (hk : Known g lib id) :
    Ends (compile g lib settings target)
      (fun _ ↦ target.IsAcyclic g lib ∧ ∀ c, target.Emits g lib settings c → Fits g lib c)
      fun f ↦ (¬ target.IsAcyclic g lib ∧ ∃ ids, f = .cycle ids) ∨
        target.IsAcyclic g lib ∧ ∃ c, target.Emits g lib settings c ∧ Misfit g lib c f := by
  obtain ⟨n, t, hn⟩ := hk
  unfold compile
  refine (Ends.orFault hid).bind ?_
  intro id' hid'
  subst hid'
  cases hs : schedule g lib id with
  | error e =>
    have hends := schedule_ends hn
    rw [hs] at hends
    obtain ⟨ids, rfl, -⟩ := hends
    exact .inl ⟨fun h ↦ h id ids hid hs, ids, rfl⟩
  | ok s =>
    have hends := schedule_ends hn
    rw [hs] at hends
    obtain ⟨⟨hplaced, -, -, -⟩, hlast⟩ := hends
    have hacyclic : target.IsAcyclic g lib := by
      intro id' ids hid' hcycle
      obtain rfl := Option.some.inj (hid.symm.trans hid')
      exact absurd (hs.symm.trans hcycle) nofun
    refine (Ends.orFault (a := t) ?_).bind ?_
    · rw [hn.node]
      exact hn.type
    intro t' ht'
    subst ht'
    refine ((Draft.ofOrder_fits settings hlib hplaced).mono (fun _ h ↦ h) ?_).bind ?_
    · intro f ⟨a, ha, c, hc, hf⟩
      exact .inr ⟨hacyclic, c, ⟨id, s, a, hid, hs, ha, hc⟩, hf⟩
    · intro d ⟨htracks, hfits⟩
      have hpins := htracks id
      rw [if_pos (List.mem_of_getLast? hlast), exports?_of_present hn] at hpins
      obtain ⟨outputs, hget, hpins⟩ := Option.map_eq_some_iff.1 hpins
      have hshown : (terminalWrite t.role outputs settings.prologue.fragColor).isSome := by
        rw [terminalWrite_isSome, hpins]
        exact (hlib _ t hn.type).shown _
      obtain ⟨terminal, hterminal⟩ := Option.isSome_iff_exists.1 hshown
      rw [hget, Option.bind_some, hterminal]
      refine ⟨hacyclic, fun c hc ↦ ?_⟩
      obtain ⟨id', s', a, hid', hs', ha, hc⟩ := hc
      obtain rfl := Option.some.inj (hid.symm.trans hid')
      obtain rfl := Except.ok.inj (hs.symm.trans hs')
      exact hfits a ha c hc

end Target

variable {g : Graph} {settings : Settings} {target : Target}

/-- What holds of the graph when a compilation ends in the given way. -/
def Target.Explains (g : Graph) (lib : Library) (settings : Settings) (target : Target) :
    Except Fault Shader → Prop
  | .ok _ => target.Resolves g lib ∧ target.IsAcyclic g lib ∧
    ∀ c, target.Emits g lib settings c → Fits g lib c
  | .error (.cycle _) => target.Resolves g lib ∧ ¬ target.IsAcyclic g lib
  | .error (.mismatch source key sourceType node input type) =>
    target.Resolves g lib ∧ target.IsAcyclic g lib ∧ ∃ c, target.Emits g lib settings c ∧
      Misfit g lib c (.mismatch source key sourceType node input type)
  | .error f => ¬ target.Resolves g lib ∧ f = target.missing

namespace Target.Explains

variable {lib : Library} {outcome : Except Fault Shader}

theorem exists_ok (h : target.Explains g lib settings outcome) (hres : target.Resolves g lib)
    (hacyclic : target.IsAcyclic g lib)
    (hfits : ∀ c, target.Emits g lib settings c → Fits g lib c) :
    ∃ shader, outcome = .ok shader := by
  cases outcome with
  | ok shader => exact ⟨shader, rfl⟩
  | error f =>
    cases f with
    | cycle ids => exact absurd hacyclic h.2
    | noOutput | noPreview node => exact absurd hres h.1
    | mismatch =>
      obtain ⟨-, -, c, hc, hf⟩ := h
      exact absurd (hfits c hc) hf.not_fits

theorem exists_cycle (h : target.Explains g lib settings outcome) (hres : target.Resolves g lib)
    (hcyclic : ¬ target.IsAcyclic g lib) : ∃ ids, outcome = .error (.cycle ids) := by
  cases outcome with
  | ok shader => exact absurd h.2.1 hcyclic
  | error f =>
    cases f with
    | cycle ids => exact ⟨ids, rfl⟩
    | noOutput | noPreview node => exact absurd hres h.1
    | mismatch => exact absurd h.2.1 hcyclic

theorem exists_mismatch (h : target.Explains g lib settings outcome) (hres : target.Resolves g lib)
    (hacyclic : target.IsAcyclic g lib)
    (hfits : ¬ ∀ c, target.Emits g lib settings c → Fits g lib c) :
    ∃ f, outcome = .error f ∧ f.IsMismatch := by
  cases outcome with
  | ok shader => exact absurd h.2.2 hfits
  | error f =>
    cases f with
    | cycle ids => exact absurd hacyclic h.2
    | noOutput | noPreview node => exact absurd hres h.1
    | mismatch => exact ⟨_, rfl, _, _, _, _, _, _, rfl⟩

end Target.Explains

variable (settings target) in
theorem explains_compile (hids : (g.nodes.map (·.id)).Nodup) :
    target.Explains g .builtin settings (compile g .builtin settings target) := by
  by_cases hres : target.Resolves g .builtin
  · obtain ⟨id, hid, hk⟩ := (Target.resolves_iff hids).1 hres
    have hends : Ends (compile g .builtin settings target) _ _ :=
      Target.compile_ends (fun _ _ ↦ Library.builtin_steady) hid hk
    cases hcompile : compile g .builtin settings target with
    | ok shader =>
      rw [hcompile] at hends
      exact ⟨hres, hends⟩
    | error f =>
      rw [hcompile] at hends
      rcases hends with ⟨hcyclic, ids, rfl⟩ | ⟨hacyclic, c, hc, hf⟩
      · exact ⟨hres, hcyclic⟩
      · obtain ⟨_, _, _, _, _, _, rfl⟩ := hf.isMismatch
        exact ⟨hres, hacyclic, c, hc, hf⟩
  · rw [Target.compile_of_not_resolves hres]
    cases target with
    | output | preview node => exact ⟨hres, rfl⟩

theorem compile_isOk_iff (hids : (g.nodes.map (·.id)).Nodup) :
    (∃ shader, compile g .builtin settings target = .ok shader) ↔
      target.Resolves g .builtin ∧ target.IsAcyclic g .builtin ∧
        ∀ c, target.Emits g .builtin settings c → Fits g .builtin c := by
  have h := explains_compile settings target hids
  constructor
  · intro ⟨shader, hok⟩
    rw [hok] at h
    exact h
  · intro ⟨hres, hacyclic, hfits⟩
    exact h.exists_ok hres hacyclic hfits

/-- A compilation with the built-in types succeeds just if there is something to show, it does not
lead into a circle and all wires fit of the nodes that are emitted, those of steps included. If not,
the first of these that fails is the fault, and a wire that does not fit is named. The types that
have to fit are the ones that are recorded when the wires are looked up. -/
theorem compile_outcome (hids : (g.nodes.map (·.id)).Nodup) (settings : Settings)
    (target : Target) :
    ((∃ shader, compile g .builtin settings target = .ok shader) ↔
      target.Resolves g .builtin ∧ target.IsAcyclic g .builtin ∧
        ∀ c, target.Emits g .builtin settings c → Fits g .builtin c) ∧
    (∀ f : Fault, f.isMissingTerminal = true →
      (compile g .builtin settings target = .error f ↔
        ¬ target.Resolves g .builtin ∧ f = target.missing)) ∧
    ((∃ ids, compile g .builtin settings target = .error (.cycle ids)) ↔
      target.Resolves g .builtin ∧ ¬ target.IsAcyclic g .builtin) ∧
    ((∃ f, compile g .builtin settings target = .error f ∧ f.IsMismatch) ↔
      target.Resolves g .builtin ∧ target.IsAcyclic g .builtin ∧
        ¬ ∀ c, target.Emits g .builtin settings c → Fits g .builtin c) ∧
    (∀ f, compile g .builtin settings target = .error f → f.IsMismatch →
      ∃ c, target.Emits g .builtin settings c ∧ Misfit g .builtin c f) ∧
    ∀ id s done a rest before c, target.node? g .builtin = some id →
      schedule g .builtin id = .ok s → s.order = done ++ a :: rest →
      Draft.ofOrder g .builtin settings done = .ok before →
      ReflTransGen (Draft.bench g .builtin settings {}).Expands a c →
      (Draft.bench g .builtin settings before).Knows c := by
  have h := explains_compile settings target hids
  refine ⟨compile_isOk_iff hids, fun f hmissing ↦ ⟨fun hf ↦ ?_, ?_⟩, ⟨?_, ?_⟩, ⟨?_, ?_⟩, ?_, ?_⟩
  · rw [hf] at h
    cases f with
    | noOutput | noPreview node => exact h
    | cycle | mismatch => cases hmissing
  · intro ⟨hres, hf⟩
    rw [hf]
    exact Target.compile_of_not_resolves hres
  · intro ⟨ids, hf⟩
    rw [hf] at h
    exact h
  · intro ⟨hres, hcyclic⟩
    exact h.exists_cycle hres hcyclic
  · intro ⟨f, hf, hmismatch⟩
    obtain ⟨_, _, _, _, _, _, rfl⟩ := hmismatch
    rw [hf] at h
    obtain ⟨hres, hacyclic, c, hc, hmisfit⟩ := h
    exact ⟨hres, hacyclic, fun hfits ↦ hmisfit.not_fits (hfits c hc)⟩
  · intro ⟨hres, hacyclic, hfits⟩
    exact h.exists_mismatch hres hacyclic hfits
  · intro f hf hmismatch
    obtain ⟨_, _, _, _, _, _, rfl⟩ := hmismatch
    rw [hf] at h
    exact h.2.2
  · intro id s done a rest before c hid hs horder hbefore hc
    have hplaced := placed_of_schedule hs
    rw [horder] at hplaced
    have hends := Draft.ofOrder_fits settings (fun _ _ ↦ Library.builtin_steady) hplaced.of_append
    rw [hbefore] at hends
    exact hends.1.knows hplaced (ReflTransGen.mono (fun _ _ ↦ Bench.Expands.runs) _ _ hc)

def Sample.askew : Graph where
  nodes := [
    { id := "screen", typeName := "Output",
      inputs := [{ key := "color", type := .vec3, wire := some ⟨"outer", "result"⟩ }] },
    Sample.loop "outer" ["inner"], Sample.loop "inner" ["s"],
    { id := "s", typeName := "Add",
      inputs := [{ key := "a", type := .float, wire := some ⟨"uv", "uv"⟩ }] },
    { id := "uv", typeName := "UV" }]

theorem compile_outcome_askew :
    (Sample.askew.nodes.map (·.id)).Nodup ∧
      compile Sample.askew .builtin {} .output =
        .error (.mismatch "uv" "uv" .vec2 "s" "a" .float) ∧
      Target.output.Resolves Sample.askew .builtin ∧
      Target.output.IsAcyclic Sample.askew .builtin ∧
      ∃ c, Target.output.Emits Sample.askew .builtin {} c ∧
        Misfit Sample.askew .builtin c (.mismatch "uv" "uv" .vec2 "s" "a" .float) := by
  have hids : (Sample.askew.nodes.map (·.id)).Nodup := by decide
  have hcompile : compile Sample.askew .builtin {} .output =
      .error (.mismatch "uv" "uv" .vec2 "s" "a" .float) := rfl
  have hmismatch : (Fault.mismatch "uv" "uv" .vec2 "s" "a" .float).IsMismatch :=
    ⟨_, _, _, _, _, _, rfl⟩
  obtain ⟨-, -, -, hiff, hnamed, -⟩ := compile_outcome hids {} .output
  obtain ⟨hres, hacyclic, -⟩ := hiff.1 ⟨_, hcompile, hmismatch⟩
  exact ⟨hids, hcompile, hres, hacyclic, hnamed _ hcompile hmismatch⟩

end NodeShader

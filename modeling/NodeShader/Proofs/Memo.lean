import NodeShader.Proofs.Appearance
import NodeShader.Proofs.Outcome
import NodeShader.Workshop

namespace NodeShader

inductive Request where
  | compile (graph : Graph) (target : Target)
  | forget

/-- The answer to a request in a workshop that remembers nothing. -/
def Request.answer? (lib : Library) (settings : Settings) : Request → Option (Except Fault Shader)
  | .compile g target => some (NodeShader.compile g lib settings target)
  | .forget => none

namespace Workshop

def handle (w : Workshop) : Request → Option (Except Fault Shader) × Workshop
  | .compile g target => (some (w.compile g target).1, (w.compile g target).2)
  | .forget => (none, w.forget)

def after (w : Workshop) (requests : List Request) : Workshop :=
  requests.foldl (fun w r ↦ (w.handle r).2) w

def answers (w : Workshop) : List Request → List (Except Fault Shader)
  | [] => []
  | r :: rs => (w.handle r).1.toList ++ (w.handle r).2.answers rs

theorem after_snoc (w : Workshop) (requests : List Request) (r : Request) :
    w.after (requests ++ [r]) = ((w.after requests).handle r).2 := by
  simp [after]

/-- What is remembered is what a compilation of the remembered request gives. -/
structure Faithful (lib : Library) (settings : Settings) (w : Workshop) : Prop where
  library_eq : w.library = lib
  settings_eq : w.settings = settings
  compiled : ∀ m, w.memo = some m → NodeShader.compile m.graph lib settings m.target = .ok m.shader

theorem recalled?_eq_some {w : Workshop} {g : Graph} {target : Target} {shader : Shader}
    (h : w.recalled? g target = some shader) :
    ∃ m, w.memo = some m ∧ m.target = target ∧ m.graph.same g = true ∧ m.shader = shader := by
  unfold recalled? at h
  split at h
  · obtain ⟨m, hm, h⟩ := Option.bind_eq_some_iff.1 h
    split at h
    · rename_i hsame
      simp only [Bool.and_eq_true, decide_eq_true_eq] at hsame
      exact ⟨m, hm, hsame.1, hsame.2, Option.some.inj h⟩
    · cases h
  · cases h

namespace Faithful

variable {lib : Library} {settings : Settings} {w : Workshop} {g : Graph} {target : Target}

theorem start (lib : Library) (settings : Settings) :
    Faithful lib settings { library := lib, settings := settings } :=
  ⟨rfl, rfl, nofun⟩

theorem forget (h : w.Faithful lib settings) : w.forget.Faithful lib settings :=
  ⟨h.library_eq, h.settings_eq, nofun⟩

theorem remember {shader : Shader} (h : w.Faithful lib settings)
    (hs : NodeShader.compile g lib settings target = .ok shader) :
    (w.remember g target shader).Faithful lib settings := by
  unfold Workshop.remember
  split
  · refine ⟨h.library_eq, h.settings_eq, fun m hm ↦ ?_⟩
    cases hm
    exact hs
  · exact h

variable (hlib : ∀ name t, lib.find? name = some t → t.Discreet)

include hlib in
/-- A request is recalled only if it is the last one again, up to the signs of zeros, and these are
nothing to the shader. -/
theorem compile_of_recalled? {shader : Shader} (h : w.Faithful lib settings)
    (hr : w.recalled? g target = some shader) :
    NodeShader.compile g lib settings target = .ok shader := by
  obtain ⟨m, hm, rfl, hsame, rfl⟩ := recalled?_eq_some hr
  rw [← compile_eq_of_same hlib hsame]
  exact h.compiled m hm

include hlib in
theorem compile (h : w.Faithful lib settings) (g : Graph) (target : Target) :
    (w.compile g target).1 = NodeShader.compile g lib settings target ∧
      (w.compile g target).2.Faithful lib settings ∧
      ∀ f, NodeShader.compile g lib settings target = .error f → (w.compile g target).2 = w := by
  unfold Workshop.compile
  split
  · rename_i shader hr
    have hs := h.compile_of_recalled? hlib hr
    exact ⟨hs.symm, h, fun _ _ ↦ rfl⟩
  · rw [h.library_eq, h.settings_eq]
    cases hs : NodeShader.compile g lib settings target with
    | ok shader => exact ⟨rfl, h.remember hs, nofun⟩
    | error f => exact ⟨rfl, h, fun _ _ ↦ rfl⟩

include hlib in
theorem handle (h : w.Faithful lib settings) (r : Request) :
    (w.handle r).1 = r.answer? lib settings ∧ (w.handle r).2.Faithful lib settings := by
  cases r with
  | compile g target =>
    obtain ⟨hanswer, hnext, -⟩ := h.compile hlib g target
    exact ⟨congrArg some hanswer, hnext⟩
  | forget => exact ⟨rfl, h.forget⟩

include hlib in
theorem after (h : w.Faithful lib settings) (requests : List Request) :
    (w.after requests).Faithful lib settings :=
  List.foldlRecOn requests _ h fun _ hw r _ ↦ (hw.handle hlib r).2

include hlib in
theorem answers (h : w.Faithful lib settings) (requests : List Request) :
    w.answers requests = requests.filterMap (Request.answer? lib settings) := by
  induction requests generalizing w with
  | nil => rfl
  | cons r rs ih =>
    obtain ⟨hanswer, hnext⟩ := h.handle hlib r
    rw [Workshop.answers, hanswer, ih hnext, List.filterMap_cons]
    cases r.answer? lib settings <;> rfl

end Faithful

end Workshop

theorem Library.discreet {lib : Library} (h : lib = .builtin ∨ lib = .empty) {name : String}
    {t : NodeType} (ht : lib.find? name = some t) : t.Discreet := by
  rcases h with rfl | rfl
  · exact Catalogue.discreet_of_mem t (mem_of_find?_ofList ht)
  · cases ht

/-- Whatever a workshop was asked before, it answers as if it remembered nothing, and a request that
fails leaves its memory as it was. -/
theorem Workshop.answers_transparent {lib : Library} (hlib : lib = .builtin ∨ lib = .empty)
    (settings : Settings) (requests : List Request) :
    answers { library := lib, settings := settings } requests =
      requests.filterMap (Request.answer? lib settings) ∧
    ∀ done g target f, done ++ [.compile g target] <+: requests →
      NodeShader.compile g lib settings target = .error f →
      (after { library := lib, settings := settings } (done ++ [.compile g target])).memo =
        (after { library := lib, settings := settings } done).memo := by
  have hdiscreet : ∀ name t, lib.find? name = some t → t.Discreet := fun _ _ ↦
    Library.discreet hlib
  have hstart := Faithful.start lib settings
  refine ⟨hstart.answers hdiscreet requests, fun done g target f _ hf ↦ ?_⟩
  obtain ⟨-, -, hkept⟩ := (hstart.after hdiscreet done).compile hdiscreet g target
  rw [after_snoc, handle, hkept f hf]

def Sample.level (x : Binary64) (place : Binary32) : Graph where
  nodes := [
    { id := "f", typeName := "Float", position := { x := place },
      params := .ofList [("value", .float x)] },
    { id := "o", typeName := "Output",
      inputs := [{ key := "color", type := .vec3, wire := some ⟨"f", "value"⟩ }] }]

def Sample.session : List Request :=
  [.compile (level .zero .zero) .output, .compile (level Binary.zero.neg .zero) .output,
    .compile (level .zero .zero) (.preview "gone"), .compile (level .zero Binary.zero.neg) .output,
    .forget, .compile (level .zero (.ofBits (FloatFormat.single.patterns - 1))) .output,
    .compile (level .zero (.ofBits (FloatFormat.single.patterns - 1))) .output]

theorem Workshop.answers_transparent_zeros :
    (NodeShader.compile (Sample.level .zero .zero) .builtin {} .output).isOk = true ∧
      (Sample.level .zero .zero).same (Sample.level Binary.zero.neg Binary.zero.neg) = true ∧
      (∀ x, ¬ (Sample.level x (.ofBits (FloatFormat.single.patterns - 1))).same
        (Sample.level x (.ofBits (FloatFormat.single.patterns - 1))) = true) ∧
      answers { library := .builtin, settings := {} } Sample.session =
        Sample.session.filterMap (Request.answer? .builtin {}) ∧
      (after { library := .builtin, settings := {} } (Sample.session.take 3)).memo =
        (after { library := .builtin, settings := {} } (Sample.session.take 2)).memo := by
  have hplace : Binary.isNaN (.ofBits (FloatFormat.single.patterns - 1) : Binary32) = true := by
    decide +kernel
  obtain ⟨hanswers, hkept⟩ := answers_transparent (.inl rfl) {} Sample.session
  refine ⟨by decide +kernel, by decide +kernel, fun x ↦ ?_, hanswers, ?_⟩
  · simp [Sample.level, Graph.same, Node.same, Binary.same, hplace]
  · exact hkept (Sample.session.take 2) (Sample.level .zero .zero) (.preview "gone")
      (.noPreview "gone") ⟨Sample.session.drop 3, rfl⟩ rfl

end NodeShader

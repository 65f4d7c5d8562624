import NodeShader.Draft
import NodeShader.Proofs.Catalogue
import NodeShader.Proofs.Outcome
import NodeShader.Proofs.Reads

namespace NodeShader

open Relation Schedule

theorem Library.builtin_declared {name : String} {t : NodeType}
    (h : Library.builtin.find? name = some t) (site : Site) : (t.emission site).Declared := by
  obtain ⟨l, r, hf⟩ := Catalogue.hasRecipe_of_mem t (mem_of_find?_ofList h) site
  have hd := hf.declared (List.cons_ne_nil l r)
  exact ⟨hd.nonempty, hd.outputs⟩

namespace Bench

variable {b : Bench} {room k : Nat} {n : Node} {t : NodeType} {stem c : String} {wires : Dict Term}
  {scope scope' : Scope} {e : Emission} {unroll : Emitter} {type : GlslType} {turn turn' : Turn}

theorem mem_all {id : String} (hb : b.library = .builtin) (hn : Present b.graph b.library id n t) :
    t ∈ Catalogue.all := by
  have htype := hn.type
  rw [hb] at htype
  exact Library.mem_of_find?_ofList htype

theorem not_known_of_find? {m : Node} (hc : b.graph.find? c = some m)
    (hm : b.library.find? m.typeName = none) : ¬ Known b.graph b.library c := by
  intro ⟨n, t, hn⟩
  obtain rfl := Option.some.inj (hn.node.symm.trans hc)
  rw [hn.type] at hm
  cases hm

theorem exists_mem_plan {iterations : Nat} {steps : List String} (p : String → Prop)
    (h : 0 < iterations) : (∃ s ∈ plan iterations steps, p s.2) ↔ ∃ c ∈ steps, p c := by
  constructor
  · intro ⟨s, hs, hp⟩
    exact ⟨s.2, (mem_plan.1 hs).2, hp⟩
  · intro ⟨c, hc, hp⟩
    exact ⟨(0, c), mem_plan.2 ⟨h, hc⟩, hp⟩

theorem takeStep_eq_ok (h : b.takeStep unroll type stem turn k c = .ok turn') :
    b.graph.find? c = none ∧ turn' = turn ∨
    (∃ m, b.graph.find? c = some m ∧ b.library.find? m.typeName = none ∧ turn' = turn.skip m) ∨
    ∃ m u wires stepStem stepScope e scope, Present b.graph b.library c m u ∧
      b.resolve m u = .ok wires ∧
      turn.scope.reserve (stem ++ "_i" ++ toString k ++ "_" ++ c) (outputKeys m u) =
        (stepStem, stepScope) ∧
      instantiate unroll m u stepStem (withCarry m u wires type turn.carry) stepScope =
        .ok (e, scope) ∧
      turn' = turn.append type e scope := by
  unfold takeStep at h
  split at h
  · rename_i hc
    cases h
    exact .inl ⟨hc, rfl⟩
  · rename_i m hm
    split at h
    · rename_i hu
      cases h
      exact .inr (.inl ⟨m, hm, hu, rfl⟩)
    · rename_i u hu
      obtain ⟨wires, hw, h⟩ := bind_eq_ok.1 h
      obtain ⟨⟨e, scope⟩, he, h⟩ := bind_eq_ok.1 h
      cases h
      exact .inr (.inr ⟨m, u, wires, _, _, e, scope, ⟨hm, hu⟩, hw, rfl, he, rfl⟩)

/-- The three ways to unroll a loop: a step is missing, there is nothing to run, or the steps are
run. -/
theorem unroll_eq_ok (h : b.unroll room n t stem wires scope = .ok (e, scope')) :
    b.missingSteps n ≠ [] ∧ scope' = scope ∧
      e = Emission.declare { diagnostics := (b.missingSteps n).map (.missingStep n.id) }
        (n.site t stem wires) resultKey n.carryType n.carryType.zero ∨
    b.missingSteps n = [] ∧ (n.steps = [] ∨ b.turns n = 0) ∧ scope' = scope ∧
      e = t.emission (n.site t stem wires) ∨
    b.missingSteps n = [] ∧ n.steps ≠ [] ∧ 0 < b.turns n ∧ ∃ room' turn, room = room' + 1 ∧
      (plan (b.turns n) n.steps).foldlM
        (fun turn s ↦ b.takeStep (b.unroll room') n.carryType stem turn s.1 s.2)
        { scope := scope, carry := (n.site t stem wires).read carryKey n.carryType } = .ok turn ∧
      scope' = turn.scope ∧
      e = turn.emission.declare (n.site t stem wires) resultKey n.carryType turn.carry.text := by
  cases room with
  | zero => cases h
  | succ room =>
    simp only [Bench.unroll] at h
    split at h
    · rename_i hm
      cases h
      exact .inl ⟨by simpa using hm, rfl, rfl⟩
    · rename_i hm
      replace hm : b.missingSteps n = [] := by simpa using hm
      split at h
      · rename_i hs
        cases h
        exact .inr (.inl ⟨hm, by simpa using hs, rfl, rfl⟩)
      · rename_i hs
        obtain ⟨hsteps, hturns⟩ : n.steps ≠ [] ∧ b.turns n ≠ 0 := by simpa using hs
        obtain ⟨turn, ht, h⟩ := bind_eq_ok.1 h
        cases h
        exact .inr (.inr ⟨hm, hsteps, Nat.pos_of_ne_zero hturns, room, turn, rfl, ht, rfl, rfl⟩)

theorem emit_of_loop (ht : t.role = .loop) : b.emit room n t = b.unroll room n t := by
  funext stem wires scope
  simp [emit, instantiate, ht]

theorem emit_of_not_loop (ht : t.role ≠ .loop) :
    b.emit room n t stem wires scope =
      .ok (t.emission { n.site t stem wires with symbol := (scope.symbol n.id).1 },
        (scope.symbol n.id).2) := by
  simp [emit, instantiate, ht]

variable (b) in
/-- Properties of the instances of a node, with all that they are emitted with, and of loops under way,
that hold of an instance if they hold of the steps that it emits. -/
structure Inherits
    (P : Nat → Node → NodeType → String → Dict Term → Scope → Emission → Scope → Prop)
    (Q : Nat → Node → String → Scope → Term → List (Nat × String) → Turn → Prop) : Prop where
  plain {n : Node} {t : NodeType} (room stem wires scope) (hn : Present b.graph b.library n.id n t)
    (ht : t.role ≠ .loop) :
    P room n t stem wires scope
      (t.emission { n.site t stem wires with symbol := (scope.symbol n.id).1 }) (scope.symbol n.id).2
  gap {n : Node} {t : NodeType} (room stem wires scope) (hn : Present b.graph b.library n.id n t)
    (ht : t.role = .loop) (hm : b.missingSteps n ≠ []) :
    P (room + 1) n t stem wires scope
      (Emission.declare { diagnostics := (b.missingSteps n).map (.missingStep n.id) }
        (n.site t stem wires) resultKey n.carryType n.carryType.zero) scope
  idle {n : Node} {t : NodeType} (room stem wires scope) (hn : Present b.graph b.library n.id n t)
    (ht : t.role = .loop) (hm : b.missingSteps n = []) (hs : n.steps = [] ∨ b.turns n = 0) :
    P (room + 1) n t stem wires scope (t.emission (n.site t stem wires)) scope
  run {n : Node} {t : NodeType} {room stem wires scope turn}
    (hn : Present b.graph b.library n.id n t) (ht : t.role = .loop) (hm : b.missingSteps n = [])
    (hturns : 0 < b.turns n) (hrun : Q room n stem scope ((n.site t stem wires).read carryKey n.carryType)
      (plan (b.turns n) n.steps) turn) :
    P (room + 1) n t stem wires scope
      (turn.emission.declare (n.site t stem wires) resultKey n.carryType turn.carry.text) turn.scope
  start (room n stem scope carry) : Q room n stem scope carry [] { scope := scope, carry := carry }
  skip {room n stem scope carry done turn c m} (k) (hc : b.graph.find? c = some m)
    (hm : b.library.find? m.typeName = none) (hturn : Q room n stem scope carry done turn) :
    Q room n stem scope carry (done ++ [(k, c)]) (turn.skip m)
  step {room n stem scope carry done turn c m u wires stepStem stepScope e scope'} (k)
    (hm : Present b.graph b.library c m u) (hw : b.resolve m u = .ok wires)
    (hstem : turn.scope.reserve (stem ++ "_i" ++ toString k ++ "_" ++ c) (outputKeys m u) =
      (stepStem, stepScope))
    (hturn : Q room n stem scope carry done turn)
    (he : P room m u stepStem (withCarry m u wires n.carryType turn.carry) stepScope e scope') :
    Q room n stem scope carry (done ++ [(k, c)]) (turn.append n.carryType e scope')

theorem Inherits.emit
    {P : Nat → Node → NodeType → String → Dict Term → Scope → Emission → Scope → Prop}
    {Q : Nat → Node → String → Scope → Term → List (Nat × String) → Turn → Prop}
    (h : b.Inherits P Q) (hn : Present b.graph b.library n.id n t)
    (he : b.emit room n t stem wires scope = .ok (e, scope')) :
    P room n t stem wires scope e scope' := by
  induction room generalizing n t stem wires scope e scope' with
  | zero =>
    by_cases ht : t.role = .loop
    · rw [emit_of_loop ht] at he
      cases he
    · rw [emit_of_not_loop ht] at he
      cases he
      exact h.plain 0 stem wires scope hn ht
  | succ room ih =>
    by_cases ht : t.role = .loop
    · rw [emit_of_loop ht] at he
      rcases unroll_eq_ok he with ⟨hm, rfl, rfl⟩ | ⟨hm, hs, rfl, rfl⟩ |
        ⟨hm, -, hturns, room', turn, hroom, hrun, rfl, rfl⟩
      · exact h.gap room stem wires _ hn ht hm
      · exact h.idle room stem wires _ hn ht hm hs
      · obtain rfl := Nat.succ.inj hroom
        apply h.run hn ht hm hturns
        refine foldlM_eq_ok_progress (fun done turn ↦ Q room n stem scope _ done turn) hrun
          (h.start room n stem scope _) ?_
        intro done turn turn' s hs hstep hturn
        rcases takeStep_eq_ok hstep with ⟨hnone, -⟩ | ⟨m, hc, hu, rfl⟩ |
          ⟨m, u, wires', stepStem, stepScope, e, scope', hmu, hw, hstem, he, rfl⟩
        · -- No step is missing.
          have hmissing : s.2 ∈ b.missingSteps n :=
            List.mem_filter.2 ⟨(mem_plan.1 hs).2, by simp [hnone]⟩
          rw [hm] at hmissing
          cases hmissing
        · exact h.skip s.1 hc hu hturn
        · exact h.step s.1 hmu hw hstem hturn (ih hmu.self he)
    · rw [emit_of_not_loop ht] at he
      cases he
      exact h.plain (room + 1) stem wires scope hn ht

variable (b) in
structure Kept (P : Nat → String → Scope → Emission → Scope → Prop)
    (Q : Nat → List (Nat × String) → Scope → Turn → Prop) : Prop where
  plain {id n t} (room stem wires scope) (hn : Present b.graph b.library id n t)
    (ht : t.role ≠ .loop) :
    P room id scope (t.emission { n.site t stem wires with symbol := (scope.symbol id).1 })
      (scope.symbol id).2
  gap {id n t} (room stem wires scope) (hn : Present b.graph b.library id n t) (ht : t.role = .loop)
    (hm : b.missingSteps n ≠ []) :
    P (room + 1) id scope
      (Emission.declare { diagnostics := (b.missingSteps n).map (.missingStep id) }
        (n.site t stem wires) resultKey n.carryType n.carryType.zero) scope
  idle {id n t} (room stem wires scope) (hn : Present b.graph b.library id n t) (ht : t.role = .loop)
    (hm : b.missingSteps n = []) (hs : n.steps = [] ∨ b.turns n = 0) :
    P (room + 1) id scope (t.emission (n.site t stem wires)) scope
  run {id n t room scope turn} (stem wires) (hn : Present b.graph b.library id n t)
    (ht : t.role = .loop) (hm : b.missingSteps n = []) (hturns : 0 < b.turns n)
    (hrun : Q room (plan (b.turns n) n.steps) scope turn) :
    P (room + 1) id scope
      (turn.emission.declare (n.site t stem wires) resultKey n.carryType turn.carry.text) turn.scope
  start (room scope carry) : Q room [] scope { scope := scope, carry := carry }
  skip {room done scope turn c m} (k) (hc : b.graph.find? c = some m)
    (hm : b.library.find? m.typeName = none) (hturn : Q room done scope turn) :
    Q room (done ++ [(k, c)]) scope (turn.skip m)
  step {room done scope turn base stem c m u stepScope e scope'} (k type)
    (hm : Present b.graph b.library c m u)
    (hstem : turn.scope.reserve base (outputKeys m u) = (stem, stepScope))
    (hturn : Q room done scope turn) (he : P room c stepScope e scope') :
    Q room (done ++ [(k, c)]) scope (turn.append type e scope')

theorem Kept.emit {P : Nat → String → Scope → Emission → Scope → Prop}
    {Q : Nat → List (Nat × String) → Scope → Turn → Prop} {id : String} (h : b.Kept P Q)
    (hn : Present b.graph b.library id n t)
    (he : b.emit room n t stem wires scope = .ok (e, scope')) : P room id scope e scope' := by
  have hinherits : b.Inherits (fun room n _ _ _ scope e scope' ↦ P room n.id scope e scope')
      (fun room _ _ scope _ done turn ↦ Q room done scope turn) := {
    plain := h.plain
    gap := h.gap
    idle := h.idle
    run := h.run _ _
    start := fun room _ _ scope carry ↦ h.start room scope carry
    skip := h.skip
    step := fun k hm _ hstem hturn he ↦ h.step k _ hm hstem hturn (hm.id_eq ▸ he) }
  exact hn.id_eq ▸ hinherits.emit hn.self he

theorem takeStep_outputs (h : b.takeStep unroll type stem turn k c = .ok turn') :
    turn'.emission.outputs = turn.emission.outputs := by
  rcases takeStep_eq_ok h with ⟨-, rfl⟩ | ⟨m, -, -, rfl⟩ | ⟨m, u, _, _, _, _, _, -, -, -, -, rfl⟩
  · rfl
  · rfl
  · rfl

/-- The steps of a loop export nothing themselves. -/
theorem foldlM_takeStep_outputs {steps : List (Nat × String)}
    (h : steps.foldlM (fun turn s ↦ b.takeStep unroll type stem turn s.1 s.2) turn = .ok turn') :
    turn'.emission.outputs = turn.emission.outputs :=
  foldlM_eq_ok_induction (fun turn' ↦ turn'.emission.outputs = turn.emission.outputs) h rfl
    fun _ _ _ _ hs ho ↦ (takeStep_outputs hs).trans ho

/-- What an instance of a node emits is declared, if that is so for its type alone. -/
theorem emit_declared (ht : ∀ site, (t.emission site).Declared)
    (h : b.emit room n t stem wires scope = .ok (e, scope')) : e.Declared := by
  by_cases hl : t.role = .loop
  · rw [emit_of_loop hl] at h
    rcases unroll_eq_ok h with ⟨-, -, rfl⟩ | ⟨-, -, -, rfl⟩ | ⟨-, -, -, room', turn, -, hrun, -, rfl⟩
    · exact Emission.declare_declared rfl ..
    · exact ht _
    · exact Emission.declare_declared (foldlM_takeStep_outputs hrun) ..
  · rw [emit_of_not_loop hl] at h
    cases h
    exact ht _

variable (b) in
/-- To emit the first node is to emit the second as one of its steps: the first is a loop that misses
no step and runs. -/
def Expands (a c : String) : Prop :=
  ∃ n t, Present b.graph b.library a n t ∧ t.role = .loop ∧ b.missingSteps n = [] ∧
    0 < b.turns n ∧ c ∈ n.steps ∧ Known b.graph b.library c

theorem Expands.runs {a : String} (h : b.Expands a c) : Runs b.graph b.library a c := by
  obtain ⟨n, t, hn, ht, -, -, hc, hk⟩ := h
  exact ⟨n, t, hn, ht, hc, hk⟩

variable (b) in
/-- The first node is a loop that misses no step and runs, and the second is one of its steps, of a
known type or not. -/
def Takes (l s : String) : Prop :=
  ∃ n t, Present b.graph b.library l n t ∧ t.role = .loop ∧ b.missingSteps n = [] ∧
    0 < b.turns n ∧ s ∈ n.steps

theorem expands_iff {a : String} : b.Expands a c ↔ b.Takes a c ∧ Known b.graph b.library c := by
  constructor
  · intro ⟨n, t, hn, ht, hm, hturns, hc, hk⟩
    exact ⟨⟨n, t, hn, ht, hm, hturns, hc⟩, hk⟩
  · intro ⟨⟨n, t, hn, ht, hm, hturns, hc⟩, hk⟩
    exact ⟨n, t, hn, ht, hm, hturns, hc, hk⟩

theorem takes_iff {a : String} (hn : Present b.graph b.library a n t) : b.Takes a c ↔
    t.role = .loop ∧ b.missingSteps n = [] ∧ 0 < b.turns n ∧ c ∈ n.steps :=
  hn.exists_iff

theorem not_takes_of_idle {a : String} (hn : Present b.graph b.library a n t)
    (hs : n.steps = [] ∨ b.turns n = 0) (c : String) : ¬ b.Takes a c := by
  intro hc
  obtain ⟨-, -, hturns, hsteps⟩ := (takes_iff hn).1 hc
  rcases hs with hs | hs
  · rw [hs] at hsteps
    cases hsteps
  · omega

theorem expands_all_iff_eq {a : String} (h : ∀ c, ¬ b.Takes a c) :
    ReflTransGen b.Expands a c ↔ a = c := by
  constructor
  · intro hc
    rcases hc.cases_head with rfl | ⟨d, hd, -⟩
    · rfl
    · exact absurd (expands_iff.1 hd).1 (h d)
  · intro hc
    rw [hc]

/-- A loop that runs expands to itself and to what its steps expand to. -/
theorem expands_all_iff {a : String} (hn : Present b.graph b.library a n t) (ht : t.role = .loop)
    (hm : b.missingSteps n = []) (hturns : 0 < b.turns n) :
    ReflTransGen b.Expands a c ↔
      a = c ∨ ∃ s ∈ n.steps, Known b.graph b.library s ∧ ReflTransGen b.Expands s c := by
  constructor
  · intro hc
    rcases hc.cases_head with rfl | ⟨s, hs, hsc⟩
    · exact .inl rfl
    · obtain ⟨htakes, hk⟩ := expands_iff.1 hs
      exact .inr ⟨s, ((takes_iff hn).1 htakes).2.2.2, hk, hsc⟩
  · intro hc
    rcases hc with rfl | ⟨s, hs, hk, hsc⟩
    · exact .refl
    · exact .head (expands_iff.2 ⟨(takes_iff hn).2 ⟨ht, hm, hturns, hs⟩, hk⟩) hsc

variable (b) in
def Emitted (c : String) : Prop :=
  ∃ n t, Present b.graph b.library c n t ∧ (∃ wires, b.resolve n t = .ok wires) ∧
    ∃ room stem wires scope r, b.emit room n t stem wires scope = .ok r

theorem Emitted.expands {a : String} (ha : b.Emitted a) (h : b.Expands a c) : b.Emitted c := by
  obtain ⟨n, t, hn, -, room, stem, wires, scope, ⟨e, scope'⟩, he⟩ := ha
  obtain ⟨n', t', hn', ht, hm, hturns, hc, hk⟩ := h
  obtain ⟨rfl, rfl⟩ := hn.unique hn'
  rw [emit_of_loop ht] at he
  rcases unroll_eq_ok he with ⟨hm', -⟩ | ⟨-, hnone, -⟩ | ⟨-, -, -, room', turn, -, hrun, -⟩
  · exact absurd hm hm'
  · rcases hnone with hs | hz
    · exact absurd (hs ▸ hc) List.not_mem_nil
    · omega
  · -- The step is taken in the first iteration already.
    obtain ⟨s, s', hs⟩ := exists_of_foldlM_eq_ok hrun (mem_plan.2 ⟨hturns, hc⟩)
    obtain ⟨m, u, hmu⟩ := hk
    rcases takeStep_eq_ok hs with ⟨hnode, -⟩ | ⟨m', hnode, htype, -⟩ |
      ⟨m', u', wires, stepStem, stepScope, e, scope, hm', hw, -, he, -⟩
    · simp [hmu.node] at hnode
    · obtain rfl := Option.some.inj (hmu.node.symm.trans hnode)
      simp [hmu.type] at htype
    · exact ⟨m', u', hm', ⟨wires, hw⟩, room', stepStem, _, stepScope, (e, scope), he⟩

theorem Emitted.resolve (h : b.Emitted c) (hn : Present b.graph b.library c n t) :
    ∃ wires, b.resolve n t = .ok wires := by
  obtain ⟨m, u, hm, hw, -⟩ := h
  obtain ⟨rfl, rfl⟩ := hn.unique hm
  exact hw

end Bench

end NodeShader

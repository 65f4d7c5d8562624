import NodeShader.Proofs.Expansion

namespace NodeShader

open Relation Schedule

namespace Bench

variable {b : Bench} {room : Nat} {n : Node} {t : NodeType} {id c : String}

section

variable (b)

def found? (id : String) : Option (Node × NodeType) :=
  (b.graph.find? id).bind fun n ↦ (b.library.find? n.typeName).map fun t ↦ (n, t)

def stepPlan (id : String) : List (Nat × String) :=
  match b.found? id with
  | some (n, t) =>
    if t.role = .loop ∧ b.missingSteps n = [] then plan (b.turns n) n.steps else []
  | none => []

/-- The instances that are emitted with a node: first those of the steps, with at most `room` loops
inside each other, and then the one of the node itself. -/
def instances : (room : Nat) → String → List (Node × NodeType)
  | 0, id => (b.found? id).toList
  | room + 1, id => ((b.stepPlan id).flatMap fun s ↦ instances room s.2) ++ (b.found? id).toList

end

theorem found?_eq_some {p : Node × NodeType} :
    b.found? id = some p ↔ Present b.graph b.library id p.1 p.2 := by
  simp only [found?, Option.bind_eq_some_iff, Option.map_eq_some_iff]
  constructor
  · intro ⟨n, hn, t, ht, hp⟩
    cases hp
    exact ⟨hn, ht⟩
  · intro h
    exact ⟨p.1, h.node, p.2, h.type, rfl⟩

theorem found?_of_present (hn : Present b.graph b.library id n t) : b.found? id = some (n, t) :=
  found?_eq_some.2 hn

theorem found?_of_unknown (h : ¬ Known b.graph b.library c) : b.found? c = none := by
  cases hfound : b.found? c with
  | none => rfl
  | some p => exact absurd ⟨p.1, p.2, found?_eq_some.1 hfound⟩ h

theorem stepPlan_of_not_loop (hn : Present b.graph b.library id n t) (ht : t.role ≠ .loop) :
    b.stepPlan id = [] := by
  simp [stepPlan, found?_of_present hn, ht]

theorem stepPlan_of_gap (hn : Present b.graph b.library id n t) (hm : b.missingSteps n ≠ []) :
    b.stepPlan id = [] := by
  simp [stepPlan, found?_of_present hn, hm]

theorem stepPlan_of_idle (hn : Present b.graph b.library id n t)
    (hs : n.steps = [] ∨ b.turns n = 0) : b.stepPlan id = [] := by
  rcases hs with hs | hs <;> simp [stepPlan, found?_of_present hn, plan, hs]

theorem stepPlan_of_run (hn : Present b.graph b.library id n t) (ht : t.role = .loop)
    (hm : b.missingSteps n = []) : b.stepPlan id = plan (b.turns n) n.steps := by
  simp [stepPlan, found?_of_present hn, ht, hm]

theorem instances_of_unknown (h : ¬ Known b.graph b.library c) (room : Nat) :
    b.instances room c = [] := by
  cases room <;> simp [instances, stepPlan, found?_of_unknown h]

theorem instances_of_stepPlan (hn : Present b.graph b.library id n t) (h : b.stepPlan id = [])
    (room : Nat) : b.instances room id = [(n, t)] := by
  cases room <;> simp [instances, h, found?_of_present hn]

theorem instances_of_run (hn : Present b.graph b.library id n t) (ht : t.role = .loop)
    (hm : b.missingSteps n = []) (room : Nat) : b.instances (room + 1) id =
      ((plan (b.turns n) n.steps).flatMap fun s ↦ b.instances room s.2) ++ [(n, t)] := by
  simp [instances, stepPlan_of_run hn ht hm, found?_of_present hn]

theorem mem_instances_self (hn : Present b.graph b.library id n t) (room : Nat) :
    (n, t) ∈ b.instances room id := by
  cases room <;> simp [instances, found?_of_present hn]

theorem present_of_mem_instances {p : Node × NodeType} (h : p ∈ b.instances room id) :
    Present b.graph b.library p.1.id p.1 p.2 := by
  induction room generalizing id with
  | zero => exact (found?_eq_some.1 (Option.mem_toList.1 h)).self
  | succ room ih =>
    rcases List.mem_append.1 h with h | h
    · obtain ⟨s, -, hs⟩ := List.mem_flatMap.1 h
      exact ih hs
    · exact (found?_eq_some.1 (Option.mem_toList.1 h)).self

/-- Where emission ends well, all that a node expands to has an instance. -/
theorem kept_instances : b.Kept
    (fun room id _ _ _ ↦ ∀ c, (∃ p ∈ b.instances room id, p.1.id = c) ↔ ReflTransGen b.Expands id c)
    fun room done _ _ ↦ ∀ c, (∃ p ∈ done.flatMap fun s ↦ b.instances room s.2, p.1.id = c) ↔
      ∃ s ∈ done, Known b.graph b.library s.2 ∧ ReflTransGen b.Expands s.2 c where
  plain room stem wires scope hn ht c := by
    rw [instances_of_stepPlan hn (stepPlan_of_not_loop hn ht),
      expands_all_iff_eq fun c hc ↦ ht ((takes_iff hn).1 hc).1]
    simp [hn.id_eq]
  gap room stem wires scope hn ht hm c := by
    rw [instances_of_stepPlan hn (stepPlan_of_gap hn hm),
      expands_all_iff_eq fun c hc ↦ hm ((takes_iff hn).1 hc).2.1]
    simp [hn.id_eq]
  idle room stem wires scope hn ht hm hs c := by
    rw [instances_of_stepPlan hn (stepPlan_of_idle hn hs),
      expands_all_iff_eq (not_takes_of_idle hn hs)]
    simp [hn.id_eq]
  run stem wires hn ht hm hturns hrun c := by
    have hsteps := (hrun c).trans (exists_mem_plan
      (fun s ↦ Known b.graph b.library s ∧ ReflTransGen b.Expands s c) hturns)
    rw [instances_of_run hn ht hm, expands_all_iff hn ht hm hturns, ← hsteps, or_comm]
    simp only [List.mem_append, List.mem_singleton, or_and_right, exists_or, exists_eq_left,
      hn.id_eq]
  start room scope carry c := by simp
  skip k hc hm hturn d := by
    have hunknown := not_known_of_find? hc hm
    rw [List.flatMap_append, List.flatMap_singleton, instances_of_unknown hunknown, List.append_nil,
      hturn d]
    simp [or_and_right, exists_or, hunknown]
  step k type hm hstem hturn he d := by
    have hknown : Known b.graph b.library _ := ⟨_, _, hm⟩
    rw [List.flatMap_append, List.flatMap_singleton]
    simp only [List.mem_append, or_and_right, exists_or, hturn d, he d]
    simp [hknown]

end Bench

namespace Draft

variable {g : Graph} {settings : Settings}

def instances (g : Graph) (lib : Library) (settings : Settings) (order : List String) :
    List (Node × NodeType) :=
  order.flatMap ((bench g lib settings {}).instances (g.nodes.length + 1))

theorem instances_bench (lib : Library) (d : Draft) (room : Nat) (id : String) :
    (bench g lib settings d).instances room id = (bench g lib settings {}).instances room id := by
  induction room generalizing id with
  | zero => rfl
  | succ room ih =>
    simp only [Bench.instances, ih]
    rfl

theorem instances_snoc (lib : Library) (d : Draft) (order : List String) (id : String) :
    instances g lib settings (order ++ [id]) = instances g lib settings order ++
      (bench g lib settings d).instances (g.nodes.length + 1) id := by
  rw [instances, List.flatMap_append, List.flatMap_singleton, instances_bench lib d]
  rfl

end Draft

end NodeShader

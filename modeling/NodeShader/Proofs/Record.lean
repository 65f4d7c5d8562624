import NodeShader.Proofs.Expansion
import NodeShader.Shader
import Mathlib.Data.List.Forall2
import Mathlib.Data.List.Induction

namespace NodeShader

open Schedule

namespace Draft

variable {g : Graph} {lib : Library} {settings : Settings} {room : Nat} {d d' : Draft} {id : String}
  {n : Node} {t : NodeType} {order : List String}

theorem library_bench (g : Graph) (lib : Library) (settings : Settings) (d : Draft) :
    (bench g lib settings d).library = lib := rfl

/-- A node is left out, or it is emitted under a stem that was reserved for it. -/
theorem addNode_cases (h : addNode g lib settings room d id = .ok d') :
    ¬ Known g lib id ∧ d' = d ∨
    ∃ n t wires stem scope e scope', Present g lib id n t ∧
      (bench g lib settings d).resolve n t = .ok wires ∧
      d.scope.reserve id (outputKeys n t) = (stem, scope) ∧
      (bench g lib settings d).emit room n t stem wires scope = .ok (e, scope') ∧
      d' = d.append id e scope' := by
  unfold addNode at h
  split at h
  · rename_i hnone
    cases h
    exact .inl ⟨fun ⟨n, t, hn⟩ ↦ by simp [hn.node] at hnone, rfl⟩
  · rename_i n hnode
    split at h
    · rename_i hnone
      cases h
      refine .inl ⟨fun ⟨m, u, hm⟩ ↦ ?_, rfl⟩
      obtain rfl := Option.some.inj (hm.node.symm.trans hnode)
      simp [hm.type] at hnone
    · rename_i t htype
      have hn : Present g lib id n t := ⟨hnode, htype⟩
      obtain ⟨wires, hw, h⟩ := bind_eq_ok.1 h
      obtain ⟨⟨e, scope⟩, he, h⟩ := bind_eq_ok.1 h
      cases h
      rw [hn.id_eq] at he ⊢
      exact .inr ⟨n, t, wires, _, _, e, scope, hn, hw, rfl, he, rfl⟩

theorem addNode_eq_ok (hn : Present g lib id n t) (h : addNode g lib settings room d id = .ok d') :
    ∃ wires stem scope e scope', (bench g lib settings d).resolve n t = .ok wires ∧
      (bench g lib settings d).emit room n t stem wires scope = .ok (e, scope') ∧
      d' = d.append id e scope' := by
  rcases addNode_cases h with ⟨hunknown, -⟩ | ⟨m, u, wires, stem, scope, e, scope', hm, hw, -, he, rfl⟩
  · exact absurd ⟨n, t, hn⟩ hunknown
  · obtain ⟨rfl, rfl⟩ := hn.unique hm
    exact ⟨wires, stem, scope, e, scope', hw, he, rfl⟩

theorem blocks_append {e : Emission} (h : e.statements ≠ []) (d : Draft) (id : String) (scope : Scope) :
    (d.append id e scope).blocks = d.blocks ++ [e.statements] := by
  simp [append, h]

/-- The draft of an order: a block for each node, which declares the outputs of that node, and no
outputs of other nodes. -/
structure Records (d : Draft) (order : List String) : Prop where
  blocks : List.Forall₂ (fun id block ↦ block ≠ [] ∧ ∃ outputs, d.outputs.get? id = some outputs ∧
    ∀ o ∈ outputs, Declares block o.2) order d.blocks
  outputs : ∀ id, d.outputs.contains id = true ↔ id ∈ order

namespace Records

theorem empty : Records {} [] := ⟨.nil, by simp [Dict.contains]⟩

theorem append {e : Emission} (h : d.Records order) (he : e.Declared) (hid : id ∉ order)
    (scope : Scope) : (d.append id e scope).Records (order ++ [id]) := by
  have hget : ∀ k, (d.append id e scope).outputs.get? k =
      if k = id then some e.outputs else d.outputs.get? k := fun k ↦ Dict.get?_insert ..
  obtain ⟨hlength, hzip⟩ := List.forall₂_iff_zip.1 h.blocks
  constructor
  · rw [blocks_append he.nonempty, List.forall₂_iff_zip, List.zip_append hlength]
    refine ⟨by simp [hlength], fun {k block} hk ↦ ?_⟩
    rcases List.mem_append.1 hk with hk | hk
    · -- The id is new, so what is recorded of the nodes before stays.
      have hne : k ≠ id := fun hki ↦ hid (hki ▸ (List.of_mem_zip hk).1)
      rw [hget, if_neg hne]
      exact hzip hk
    · obtain ⟨rfl, rfl⟩ : k = id ∧ block = e.statements := by simpa using hk
      rw [hget, if_pos rfl]
      exact ⟨he.nonempty, e.outputs, rfl, he.outputs⟩
  · intro k
    rw [Dict.contains, hget, List.mem_append, List.mem_singleton, ← h.outputs k, Dict.contains]
    split
    · simp [*]
    · simp [*]

theorem length_eq (h : d.Records order) : d.blocks.length = order.length := h.blocks.length_eq.symm

theorem mem {outputs : Exports} (h : d.Records order) (ho : d.outputs.get? id = some outputs) :
    id ∈ order := by
  rw [← h.outputs id, Dict.contains, ho]
  rfl

end Records

theorem ofOrderWithin_append {done rest : List String} :
    ofOrderWithin g lib settings room (done ++ rest) = .ok d ↔
      ∃ before, ofOrderWithin g lib settings room done = .ok before ∧
        rest.foldlM (addNode g lib settings room) before = .ok d := by
  rw [ofOrderWithin, List.foldlM_append, bind_eq_ok]
  rfl

theorem ofOrderWithin_snoc :
    ofOrderWithin g lib settings room (order ++ [id]) = .ok d ↔
      ∃ before, ofOrderWithin g lib settings room order = .ok before ∧
        addNode g lib settings room before id = .ok d := by
  simp [ofOrderWithin_append]

/-- What every node keeps, told of the nodes that are done, holds of the draft. -/
theorem ofOrder_progress (motive : List String → Draft → Prop)
    (h : ofOrder g lib settings order = .ok d) (hs : motive [] {})
    (step : ∀ done d d' id, id ∈ order →
      addNode g lib settings (g.nodes.length + 1) d id = .ok d' → motive done d →
        motive (done ++ [id]) d') : motive order d :=
  foldlM_eq_ok_progress motive h hs step

variable (g lib settings order) in
def Writes (id : String) (block : List Statement) : Prop :=
  ∃ done before n t wires stem scope e scope', done ++ [id] <+: order ∧
    ofOrder g lib settings done = .ok before ∧ Present g lib id n t ∧
    (bench g lib settings before).resolve n t = .ok wires ∧
    before.scope.reserve id (outputKeys n t) = (stem, scope) ∧
    (bench g lib settings before).emit (g.nodes.length + 1) n t stem wires scope = .ok (e, scope') ∧
    block = e.statements

/-- The blocks of a draft are written by the known nodes of its order, one after the other. -/
theorem writes_of_ofOrder (hlib : ∀ name t, lib.find? name = some t →
      ∀ site, (t.emission site).Declared) (h : ofOrder g lib settings order = .ok d) :
    List.Forall₂ (Writes g lib settings order) (order.filter (Known g lib)) d.blocks := by
  induction order using List.reverseRecOn generalizing d with
  | nil =>
    cases h
    exact .nil
  | append_singleton order id ih =>
    obtain ⟨before, hbefore, hadd⟩ := ofOrderWithin_snoc.1 h
    have hdone := (ih hbefore).imp (S := Writes g lib settings (order ++ [id])) ?_
    · rw [List.filter_append]
      rcases addNode_cases hadd with ⟨hunknown, rfl⟩ |
        ⟨n, t, wires, stem, scope, e, scope', hn, hw, hstem, he, rfl⟩
      · rw [List.filter_cons_of_neg (by simpa using hunknown), List.filter_nil, List.append_nil]
        exact hdone
      · have hknown : Known g lib id := ⟨n, t, hn⟩
        have hdeclared := Bench.emit_declared (hlib _ t hn.type) he
        rw [blocks_append hdeclared.nonempty, List.filter_cons_of_pos (by simpa using hknown)]
        refine List.rel_append hdone (.cons ?_ .nil)
        exact ⟨order, before, n, t, wires, stem, scope, e, scope', List.prefix_rfl, hbefore, hn, hw,
          hstem, he, rfl⟩
    · intro k block ⟨done, before, n, t, wires, stem, scope, e, scope', hstart, hrest⟩
      exact ⟨done, before, n, t, wires, stem, scope, e, scope', hstart.trans (List.prefix_append _ _),
        hrest⟩

end Draft

theorem compile_eq_ok {g : Graph} {lib : Library} {settings : Settings} {target : Target}
    {shader : Shader} (h : compile g lib settings target = .ok shader) :
    ∃ id plan t draft terminal, target.node? g lib = some id ∧ schedule g lib id = .ok plan ∧
      ((g.find? id).bind fun n ↦ lib.find? n.typeName) = some t ∧
      Draft.ofOrder g lib settings plan.order = .ok draft ∧
      ((draft.outputs.get? id).bind fun outputs ↦
        terminalWrite t.role outputs settings.prologue.fragColor) = some terminal ∧
      shader = {
        source := assemble settings.prologue draft.helpers (draft.blocks.map blockText) terminal
        variableNames := .ofList (draft.outputs.entries.map fun o ↦ (o.1, variablesOf o.2))
        diagnostics := mergeNew plan.diagnostics draft.diagnostics } := by
  have horFault : ∀ {α : Type} {f : Fault} {x : Option α} {a : α}, orFault f x = .ok a → x = some a := by
    intro α f x a hx
    cases x with
    | none => cases hx
    | some b => exact congrArg some (Except.ok.inj hx)
  obtain ⟨id, hid, h⟩ := bind_eq_ok.1 h
  obtain ⟨plan, hplan, h⟩ := bind_eq_ok.1 h
  obtain ⟨t, ht, h⟩ := bind_eq_ok.1 h
  obtain ⟨draft, hdraft, h⟩ := bind_eq_ok.1 h
  obtain ⟨terminal, hterminal, h⟩ := bind_eq_ok.1 h
  cases h
  exact ⟨id, plan, t, draft, terminal, horFault hid, hplan, horFault ht, hdraft, horFault hterminal, rfl⟩

end NodeShader

import NodeShader.Proofs.Nesting
import NodeShader.Proofs.Record
import NodeShader.Proofs.Signature

namespace NodeShader

open Relation Schedule

section

variable (g : Graph) (lib : Library)

/-- What comes over the wire of the input, if anything does, is of a type that it takes. -/
def Inlet.Fits (i : Inlet) : Prop :=
  ∀ w type, i.wire = some w → wireType? g lib w = some type → type.feeds i.type = true

def Fits (c : String) : Prop := ∀ n t, Present g lib c n t → ∀ i ∈ n.inlets t, i.Fits g lib

def Misfit (c : String) (f : Fault) : Prop :=
  ∃ n t, Present g lib c n t ∧ ∃ i ∈ n.inlets t, ∃ w type, i.wire = some w ∧
    wireType? g lib w = some type ∧ type.feeds i.type = false ∧
    f = .mismatch w.node w.output type c i.key i.type

variable {g lib} {c : String} {f : Fault}

theorem Misfit.not_fits (h : Misfit g lib c f) : ¬ Fits g lib c := by
  intro hfits
  obtain ⟨n, t, hn, i, hi, w, type, hw, htype, hfeeds, -⟩ := h
  have := hfits n t hn i hi w type hw htype
  simp [hfeeds] at this

theorem Misfit.isMismatch (h : Misfit g lib c f) : f.IsMismatch := by
  obtain ⟨n, t, -, i, -, w, type, -, -, -, rfl⟩ := h
  exact ⟨_, _, _, _, _, _, rfl⟩

theorem exports?_of_present {id : String} {n : Node} {t : NodeType} (h : Present g lib id n t) :
    exports? g lib id = some (n.exports t) := by
  simp [exports?, h.node, h.type]

theorem known_of_wireType? {w : Wire} {type : GlslType} (h : wireType? g lib w = some type) :
    Known g lib w.node := by
  obtain ⟨pins, hpins, -⟩ := Option.bind_eq_some_iff.1 h
  obtain ⟨n, hn, hpins⟩ := Option.bind_eq_some_iff.1 hpins
  obtain ⟨t, ht, -⟩ := Option.map_eq_some_iff.1 hpins
  exact ⟨n, t, hn, ht⟩

end

namespace Bench

variable {b : Bench} {c : String} {n : Node} {t : NodeType}

def Knows (b : Bench) (c : String) : Prop :=
  ∀ n t, Present b.graph b.library c n t → ∀ i ∈ n.inlets t, ∀ w, i.wire = some w →
    (b.source? w).map (·.type) = wireType? b.graph b.library w

theorem connect_fits (hb : b.Knows c) (hn : Present b.graph b.library c n t) {i : Inlet}
    (hi : i ∈ n.inlets t) (wires : Dict Term) :
    Ends (b.connect n wires i) (fun _ ↦ i.Fits b.graph b.library)
      (Misfit b.graph b.library c) := by
  unfold connect
  split
  · rename_i hw
    intro w type hw'
    exact absurd (hw.symm.trans hw') nofun
  · rename_i w hw
    have htype := hb n t hn i hi w hw
    split
    · rename_i hx
      intro w' type hw' htype'
      obtain rfl := Option.some.inj (hw.symm.trans hw')
      rw [hx, htype'] at htype
      cases htype
    · rename_i x hx
      rw [hx, Option.map_some] at htype
      split
      · rename_i hfeeds
        intro w' type hw' htype'
        obtain rfl := Option.some.inj (hw.symm.trans hw')
        obtain rfl := Option.some.inj (htype.trans htype')
        exact hfeeds
      · rename_i hfeeds
        refine ⟨n, t, hn, i, hi, w, x.type, hw, htype.symm, by simpa using hfeeds, ?_⟩
        rw [hn.id_eq]

theorem resolve_fits (hb : b.Knows c) (hn : Present b.graph b.library c n t) :
    Ends (b.resolve n t) (fun _ ↦ Fits b.graph b.library c) (Misfit b.graph b.library c) := by
  refine (Ends.foldlM (fun done _ ↦ ∀ i ∈ done, i.Fits b.graph b.library) (n.inlets t) (by simp)
    ?_).imp ?_
  · intro done i wires hi hdone
    refine (connect_fits hb hn hi wires).imp fun _ hfits j hj ↦ ?_
    rcases List.mem_append.1 hj with hj | hj
    · exact hdone j hj
    · rw [List.mem_singleton.1 hj]
      exact hfits
  · intro _ hfits n' t' hn'
    obtain ⟨rfl, rfl⟩ := hn.unique hn'
    exact hfits

end Bench

namespace Draft

variable {g : Graph} {lib : Library} {settings : Settings} {d d' : Draft} {id c : String}
  {done rest order : List String} {room : Nat}

/-- The draft records what the nodes of the order export, and nothing of others. -/
def Tracks (g : Graph) (lib : Library) (d : Draft) (order : List String) : Prop :=
  ∀ id, (d.outputs.get? id).map pinsOf = if id ∈ order then exports? g lib id else none

theorem Tracks.empty : Tracks g lib {} [] := fun _ ↦ rfl

theorem Tracks.addNode (hlib : ∀ name t, lib.find? name = some t → Catalogue.Steady t)
    (h : Tracks g lib d done) (hk : Known g lib id)
    (hadd : addNode g lib settings room d id = .ok d') : Tracks g lib d' (done ++ [id]) := by
  obtain ⟨n, t, hn⟩ := hk
  obtain ⟨wires, stem, scope, e, scope', -, he, rfl⟩ := addNode_eq_ok hn hadd
  have hpins := Bench.pinsOf_emit (hlib _ t hn.type) he
  intro k
  have hget : (d.append id e scope').outputs.get? k =
      if k = id then some e.outputs else d.outputs.get? k := Dict.get?_insert ..
  rw [hget]
  by_cases hki : k = id
  · subst hki
    simp [hpins, exports?_of_present hn]
  · simpa [hki] using h k

theorem Tracks.source? (h : Tracks g lib d done) (w : Wire) :
    ((bench g lib settings d).source? w).map (·.type) =
      if w.node ∈ done then wireType? g lib w else none := by
  have hsource : ((bench g lib settings d).source? w).map (·.type) =
      ((d.outputs.get? w.node).map pinsOf).bind (pinType? · w.output) := by
    simp only [Bench.source?, bench]
    cases d.outputs.get? w.node with
    | none => rfl
    | some outputs => exact (pinType?_pinsOf outputs w.output).symm
  rw [hsource, h w.node]
  split <;> rfl

/-- When a scheduled node is emitted, all that it and its steps may read is recorded. -/
theorem Tracks.knows (h : Tracks g lib d done) (hp : Placed g lib (done ++ id :: rest))
    (hc : ReflTransGen (Runs g lib) id c) : (bench g lib settings d).Knows c := by
  intro n t hn i hi w hw
  rw [h.source? w]
  split
  · rfl
  · rename_i hdone
    cases htype : wireType? g lib w with
    | none => exact htype.symm
    | some type =>
      have hread : Reads g lib id w.node :=
        ⟨c, hc, n, t, hn, ⟨i, hi, w, hw, rfl⟩, known_of_wireType? htype⟩
      exact absurd (hp.after done id rest rfl _ hread.dependsOn) hdone

variable (settings) in
/-- A schedule is emitted just if all wires fit that are looked up on the way. -/
theorem ofOrder_fits (hlib : ∀ name t, lib.find? name = some t → Catalogue.Steady t)
    (hp : Placed g lib order) :
    Ends (ofOrder g lib settings order)
      (fun d ↦ Tracks g lib d order ∧
        ∀ a ∈ order, ∀ c, ReflTransGen (bench g lib settings {}).Expands a c → Fits g lib c)
      fun f ↦ ∃ a ∈ order, ∃ c, ReflTransGen (bench g lib settings {}).Expands a c ∧
        Misfit g lib c f := by
  refine Ends.foldlM_split (fun done d ↦ Tracks g lib d done ∧
    ∀ a ∈ done, ∀ c, ReflTransGen (bench g lib settings {}).Expands a c → Fits g lib c)
    order ⟨.empty, by simp⟩ ?_
  intro done id rest d horder ⟨htracks, hdone⟩
  have hid : id ∈ order := by simp [horder]
  have hresolve : ∀ c m u, ReflTransGen (bench g lib settings d).Expands id c →
      Present g lib c m u →
      Ends ((bench g lib settings d).resolve m u) (fun _ ↦ Fits g lib c) (Misfit g lib c) := by
    intro c m u hc hm
    apply Bench.resolve_fits _ hm
    apply htracks.knows (horder ▸ hp)
    exact ReflTransGen.mono (fun _ _ ↦ Bench.Expands.runs) _ _ hc
  have hadd := addNode_ends_of_resolve _ _ (hp.nestsWithin hid) (loopCount_le g lib) d hresolve
  refine hadd.with_eq.mono ?_ ?_
  · intro d' ⟨hadd, hfits⟩
    refine ⟨htracks.addNode hlib (hp.known id hid) hadd, fun a ha c hc ↦ ?_⟩
    rcases List.mem_append.1 ha with ha | ha
    · exact hdone a ha c hc
    · rw [List.mem_singleton.1 ha] at hc
      intro n t hn
      exact hfits c hc ⟨n, t, hn⟩ n t hn
  · intro f ⟨c, hc, hf⟩
    exact ⟨id, hid, c, hc, hf⟩

end Draft

end NodeShader

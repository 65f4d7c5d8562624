import NodeShader.Schedule
import Mathlib.Logic.Relation
import Mathlib.Data.List.Nodup

namespace NodeShader

open Relation

/-- The node that an id finds, if the library has its type. -/
structure Present (g : Graph) (lib : Library) (id : String) (n : Node) (t : NodeType) : Prop where
  node : g.find? id = some n
  type : lib.find? n.typeName = some t

namespace Present

variable {g : Graph} {lib : Library} {id : String} {n n' : Node} {t t' : NodeType}

theorem id_eq (h : Present g lib id n t) : n.id = id := Graph.id_of_find? h.node

theorem unique (h : Present g lib id n t) (h' : Present g lib id n' t') : n = n' ∧ t = t' := by
  obtain rfl : n = n' := Option.some.inj (h.node.symm.trans h'.node)
  exact ⟨rfl, Option.some.inj (h.type.symm.trans h'.type)⟩

theorem exists_iff {p : Node → NodeType → Prop} (h : Present g lib id n t) :
    (∃ n t, Present g lib id n t ∧ p n t) ↔ p n t := by
  constructor
  · intro ⟨n', t', h', hp⟩
    obtain ⟨rfl, rfl⟩ := h.unique h'
    exact hp
  · intro hp
    exact ⟨n, t, h, hp⟩

theorem self (h : Present g lib id n t) : Present g lib n.id n t := by
  rw [h.id_eq]
  exact h

theorem isKnown (h : Present g lib id n t) : Schedule.isKnown lib n = true := by
  have ht : lib.types.get? n.typeName = some t := h.type
  simp [Schedule.isKnown, Library.contains, Dict.contains, ht]

end Present

namespace Schedule

variable (g : Graph) (lib : Library)

def Known (id : String) : Prop := ∃ n t, Present g lib id n t

def IsLoop (id : String) : Prop := ∃ n t, Present g lib id n t ∧ t.role = .loop

def Wired (a b : String) : Prop :=
  ∃ n t, Present g lib a n t ∧ (∃ i ∈ n.inlets t, ∃ w, i.wire = some w ∧ w.node = b) ∧
    Known g lib b

def Runs (a b : String) : Prop :=
  ∃ n t, Present g lib a n t ∧ t.role = .loop ∧ b ∈ n.steps ∧ Known g lib b

def Nests (a b : String) : Prop := Runs g lib a b ∧ IsLoop g lib b

/-- The second node is wired to the first or to what the first runs, at any depth. -/
def Reads (a b : String) : Prop := ∃ c, ReflTransGen (Runs g lib) a c ∧ Wired g lib c b

/-- The second node is on the list that the scheduler works off before the first. -/
def DependsOn (a b : String) : Prop := ∃ n t, Present g lib a n t ∧ b ∈ dependencies g lib n

variable {g lib}

theorem known_iff {id : String} :
    Known g lib id ↔ ((g.find? id).bind fun n ↦ lib.find? n.typeName).isSome := by
  rw [Option.isSome_iff_exists]
  simp only [Option.bind_eq_some_iff]
  constructor
  · intro ⟨n, t, hn⟩
    exact ⟨t, n, hn.node, hn.type⟩
  · intro ⟨t, n, hn, ht⟩
    exact ⟨n, t, hn, ht⟩

instance : DecidablePred (Known g lib) := fun _ ↦ decidable_of_iff _ known_iff.symm

theorem IsLoop.known {id : String} (h : IsLoop g lib id) : Known g lib id := by
  obtain ⟨n, t, hn, -⟩ := h
  exact ⟨n, t, hn⟩

theorem Runs.isLoop {a b : String} (h : Runs g lib a b) : IsLoop g lib a := by
  obtain ⟨n, t, hn, ht, -⟩ := h
  exact ⟨n, t, hn, ht⟩

theorem Runs.known {a b : String} (h : Runs g lib a b) : Known g lib b := by
  obtain ⟨n, t, -, -, -, hb⟩ := h
  exact hb

theorem Wired.known {a b : String} (h : Wired g lib a b) : Known g lib b := by
  obtain ⟨n, t, -, -, hb⟩ := h
  exact hb

theorem Reads.head {a b c : String} (h : ReflTransGen (Runs g lib) a b) (hc : Reads g lib b c) :
    Reads g lib a c := by
  obtain ⟨d, hd, hw⟩ := hc
  exact ⟨d, h.trans hd, hw⟩

theorem runs_of_nests {a b : String} (h : ReflTransGen (Nests g lib) a b) :
    ReflTransGen (Runs g lib) a b :=
  ReflTransGen.mono (fun _ _ ↦ And.left) a b h

theorem nests_of_runs {a b : String} (h : ReflTransGen (Runs g lib) a b) (hb : IsLoop g lib b) :
    ReflTransGen (Nests g lib) a b := by
  -- Whatever runs something is a loop, so the hypothesis passes up the way.
  induction h with
  | refl => exact .refl
  | tail _ hr ih => exact (ih hr.isLoop).tail ⟨hr, hb⟩

theorem isKnown_iff {n : Node} : isKnown lib n = true ↔ ∃ t, lib.find? n.typeName = some t := by
  simp [isKnown, Library.contains, Dict.contains, Library.find?, Option.isSome_iff_exists]

theorem mem_sources {n m : Node} {t : NodeType} :
    m ∈ sources g n t ↔ ∃ i ∈ n.inlets t, ∃ w, i.wire = some w ∧ g.find? w.node = some m := by
  simp only [sources, List.mem_filterMap, Option.bind_eq_some_iff]

theorem find?_of_mem_sources {n m : Node} {t : NodeType} (h : m ∈ sources g n t) :
    g.find? m.id = some m := by
  obtain ⟨i, -, w, -, hw⟩ := mem_sources.1 h
  rw [Graph.id_of_find? hw]
  exact hw

theorem wired_of_mem_sources {a : String} {n m : Node} {t : NodeType} (hn : Present g lib a n t)
    (h : m ∈ sources g n t) (hm : isKnown lib m = true) : Wired g lib a m.id := by
  obtain ⟨i, hi, w, hw, hf⟩ := mem_sources.1 h
  obtain ⟨u, hu⟩ := isKnown_iff.1 hm
  exact ⟨n, t, hn, ⟨i, hi, w, hw, (Graph.id_of_find? hf).symm⟩, m, u,
    find?_of_mem_sources h, hu⟩

theorem mem_sources_of_wired {a b : String} {n m : Node} {t u : NodeType}
    (hn : Present g lib a n t) (h : Wired g lib a b) (hm : Present g lib b m u) :
    m ∈ sources g n t := by
  obtain ⟨n', t', hn', ⟨i, hi, w, hw, rfl⟩, -⟩ := h
  obtain ⟨rfl, rfl⟩ := hn.unique hn'
  exact mem_sources.2 ⟨i, hi, w, hw, hm.node⟩

end Schedule

end NodeShader

import NodeShader.Catalogue
import NodeShader.Proofs.Dependency
import NodeShader.Proofs.Outcome
import Mathlib.Data.List.Chain

namespace NodeShader.Schedule

open Relation

variable (g : Graph) (lib : Library)

/-- An order in which every node comes after its dependencies. -/
structure Placed (order : List String) : Prop where
  nodup : order.Nodup
  known : ∀ id ∈ order, Known g lib id
  after : ∀ done id rest, order = done ++ id :: rest → ∀ b, DependsOn g lib id b → b ∈ done

/-- The nodes that the search has entered and not left, each a dependency of the one before. -/
structure Underway (target : String) (path : List String) : Prop where
  nodup : path.Nodup
  known : ∀ id ∈ path, Known g lib id
  chain : path.IsChain (DependsOn g lib)
  reached : ∀ id ∈ path, ReflTransGen (DependsOn g lib) target id

/-- Distinct nodes the target leads to, each of which depends on the next and the last on the
first. -/
structure Circular (target : String) (ids : List String) : Prop where
  nonempty : ids ≠ []
  nodup : ids.Nodup
  reached : ∀ id ∈ ids, ReflTransGen (DependsOn g lib) target id
  chain : (ids ++ ids.take 1).IsChain (DependsOn g lib)

/-- What the search has added since the order was `before`: nodes that `a` leads to and that are not
under way. -/
structure Extends (path : List String) (a : String) (before order : List String) : Prop where
  placed : Placed g lib order
  older : before <+: order
  apart : ∀ id ∈ order, id ∉ path
  reached : ∀ id ∈ order, id ∉ before → ReflTransGen (DependsOn g lib) a id

variable {g lib} {target a b : String} {path order before : List String}

theorem Placed.snoc (h : Placed g lib order) (ha : Known g lib a) (hn : a ∉ order)
    (hd : ∀ b, DependsOn g lib a b → b ∈ order) : Placed g lib (order ++ [a]) where
  nodup := by simpa using List.Nodup.concat hn h.nodup
  known id hid := by
    rcases List.mem_append.1 hid with hid | hid
    · exact h.known id hid
    · exact List.mem_singleton.1 hid ▸ ha
  after done id rest he := by
    -- The order is split at its end, or where the old one can be split.
    rcases List.eq_nil_or_concat rest with rfl | ⟨rest, z, rfl⟩
    · obtain ⟨rfl, hid⟩ := List.append_inj' he rfl
      obtain rfl : a = id := by simpa using hid
      exact hd
    · have hlast : order ++ [a] = (done ++ id :: rest) ++ [z] := by simpa using he
      exact h.after done id rest (List.append_inj' hlast rfl).1

theorem Placed.of_append {done rest : List String} (h : Placed g lib (done ++ rest)) :
    Placed g lib done where
  nodup := (List.nodup_append.1 h.nodup).1
  known id hid := h.known id (List.mem_append_left rest hid)
  after done' id rest' he := h.after done' id (rest' ++ rest) (by simp [he])

theorem Placed.closed (h : Placed g lib order) (ha : a ∈ order)
    (hb : ReflTransGen (DependsOn g lib) a b) : b ∈ order := by
  induction hb with
  | refl => exact ha
  | tail _ hd ih =>
    obtain ⟨done, rest, he⟩ := List.append_of_mem ih
    rw [he]
    exact List.mem_append_left _ (h.after done _ rest he _ hd)

theorem Placed.idxOf_lt (h : Placed g lib order) (ha : a ∈ order) (hb : DependsOn g lib a b) :
    order.idxOf b < order.idxOf a := by
  obtain ⟨done, rest, rfl⟩ := List.append_of_mem ha
  have hd := h.after done a rest rfl b hb
  have hna : a ∉ done := fun hm ↦
    List.disjoint_of_nodup_append h.nodup hm List.mem_cons_self
  rw [List.idxOf_append_of_mem hd, List.idxOf_append_of_notMem hna, List.idxOf_cons_self]
  exact List.idxOf_lt_length_of_mem hd

theorem Placed.acyclic (h : Placed g lib order) (ha : a ∈ order) :
    ¬ TransGen (DependsOn g lib) a a := by
  have hlt : ∀ b, TransGen (DependsOn g lib) a b → order.idxOf b < order.idxOf a := by
    intro b hb
    induction hb with
    | single hd => exact h.idxOf_lt ha hd
    | tail hb hd ih => exact (h.idxOf_lt (h.closed ha hb.to_reflTransGen) hd).trans ih
  exact fun hc ↦ lt_irrefl _ (hlt a hc)

theorem Underway.snoc (h : Underway g lib target (path ++ [a])) (hb : b ∉ path ++ [a])
    (hd : DependsOn g lib a b) : Underway g lib target (path ++ [a] ++ [b]) where
  nodup := by simpa using List.Nodup.concat hb h.nodup
  known id hid := by
    rcases List.mem_append.1 hid with hid | hid
    · exact h.known id hid
    · exact List.mem_singleton.1 hid ▸ hd.known
  chain := List.isChain_append.2 ⟨h.chain, List.isChain_singleton b, by simpa using hd⟩
  reached id hid := by
    rcases List.mem_append.1 hid with hid | hid
    · exact h.reached id hid
    · rw [List.mem_singleton.1 hid]
      exact (h.reached a (by simp)).tail hd

theorem dropWhile_ne (h : b ∈ path) :
    ∃ done rest, path = done ++ b :: rest ∧ path.dropWhile (· != b) = b :: rest := by
  induction path with
  | nil => cases h
  | cons x path ih =>
    by_cases hx : x = b
    · exact ⟨[], path, by simp [hx], by simp [hx]⟩
    · obtain ⟨done, rest, rfl, hd⟩ := ih ((List.mem_cons.1 h).resolve_left (Ne.symm hx))
      exact ⟨x :: done, rest, rfl, by simpa [List.dropWhile_cons, hx] using hd⟩

theorem Underway.circular (h : Underway g lib target (path ++ [a])) (hb : b ∈ path ++ [a])
    (hd : DependsOn g lib a b) :
    Circular g lib target ((path ++ [a]).dropWhile (· != b)) := by
  obtain ⟨done, rest, he, hdrop⟩ := dropWhile_ne hb
  have hsuf : b :: rest <:+ path ++ [a] := ⟨done, he.symm⟩
  have hlast : (b :: rest).getLast? = some a := by
    have hl : (done ++ b :: rest).getLast? = some a := by simp [← he]
    simpa using hl
  rw [hdrop]
  refine ⟨by simp, h.nodup.sublist hsuf.sublist, fun id hid ↦ h.reached id (hsuf.subset hid), ?_⟩
  refine List.isChain_append.2 ⟨h.chain.suffix hsuf, List.isChain_singleton b, ?_⟩
  simpa [hlast] using hd

theorem Extends.trans {later : List String} (h : Extends g lib path a before order)
    (hd : DependsOn g lib a b) (hb : Extends g lib path b order later) :
    Extends g lib path a before later where
  placed := hb.placed
  older := h.older.trans hb.older
  apart := hb.apart
  reached id hid hnew := by
    by_cases ho : id ∈ order
    · exact h.reached id ho hnew
    · exact .head hd (hb.reached id hid ho)

theorem Extends.finish (h : Extends g lib (path ++ [a]) a before order) (ha : Known g lib a)
    (hp : a ∉ path) (hd : ∀ b, DependsOn g lib a b → b ∈ order) :
    Extends g lib path a before (order ++ [a]) where
  placed := h.placed.snoc ha (fun hm ↦ h.apart a hm (by simp)) hd
  older := h.older.trans (List.prefix_append _ _)
  apart id hid hm := by
    rcases List.mem_append.1 hid with hid | hid
    · exact h.apart id hid (List.mem_append_left _ hm)
    · exact hp (List.mem_singleton.1 hid ▸ hm)
  reached id hid hnew := by
    rcases List.mem_append.1 hid with hid | hid
    · exact h.reached id hid hnew
    · exact List.mem_singleton.1 hid ▸ .refl

/-- Going to a dependency of `a`: it is done, it closes a circle, or it is visited. -/
theorem enter_ends {inner : List String → Node → Schedule → Except Fault Schedule} {s : Schedule}
    (hp : Underway g lib target (path ++ [a])) (hs : Extends g lib (path ++ [a]) a before s.order)
    (hd : DependsOn g lib a b)
    (hi : ∀ n t, Present g lib b n t → Underway g lib target (path ++ [a] ++ [b]) → b ∉ s.order →
      Ends (inner (path ++ [a]) n s)
        (fun s' ↦ Extends g lib (path ++ [a]) b s.order s'.order ∧ b ∈ s'.order)
        fun e ↦ ∃ ids, e = .cycle ids ∧ Circular g lib target ids) :
    Ends (enter g inner (path ++ [a]) s b)
      (fun s' ↦ Extends g lib (path ++ [a]) a before s'.order ∧ s.order <+: s'.order ∧ b ∈ s'.order)
      fun e ↦ ∃ ids, e = .cycle ids ∧ Circular g lib target ids := by
  unfold enter
  split
  · rename_i hm
    exact ⟨hs, List.prefix_rfl, hm⟩
  · rename_i hm
    split
    · rename_i hb
      exact ⟨_, rfl, hp.circular hb hd⟩
    · rename_i hb
      obtain ⟨n, t, hn⟩ := hd.known
      simp only [hn.node]
      refine (hi n t hn (hp.snoc hb hd) hm).imp fun s' hs' ↦ ?_
      exact ⟨hs.trans hd hs'.1, hs'.1.older, hs'.2⟩

/-- The search from a node that is neither done nor under way. There is always room, since the nodes
under way are distinct. -/
theorem visit_ends (room : Nat) {n : Node} {t : NodeType} {s : Schedule}
    (hn : Present g lib a n t) (hp : Underway g lib target (path ++ [a]))
    (hs : Placed g lib s.order) (hapart : ∀ id ∈ s.order, id ∉ path ++ [a])
    (hroom : g.nodes.length ≤ room + path.length) :
    Ends (visit g lib room path n s)
      (fun s' ↦ Extends g lib path a s.order s'.order ∧ s'.order.getLast? = some a)
      fun e ↦ ∃ ids, e = .cycle ids ∧ Circular g lib target ids := by
  induction room generalizing path a n t s with
  | zero =>
    have hlen := length_le_of_known hp.nodup hp.known
    simp only [List.length_append, List.length_singleton] at hlen
    omega
  | succ room ih =>
    have hpath : a ∉ path := fun hm ↦
      List.disjoint_of_nodup_append hp.nodup hm (List.mem_singleton_self a)
    rw [visit, hn.id_eq]
    -- While the dependencies are worked off, those done are in the order.
    refine (Ends.foldlM (fun done s' ↦ Extends g lib (path ++ [a]) a s.order s'.order ∧
      ∀ b ∈ done, b ∈ s'.order) (dependencies g lib n) ⟨⟨hs, List.prefix_rfl, hapart, ?_⟩, by simp⟩
      ?_).bind ?_
    · exact fun id hid hnew ↦ absurd hid hnew
    · rintro done b s' hb ⟨hs', hdone⟩
      have hd : DependsOn g lib a b := ⟨n, t, hn, hb⟩
      refine (enter_ends hp hs' hd ?_).imp ?_
      · intro m u hm hp' hnew
        have hapart' : ∀ id ∈ s'.order, id ∉ path ++ [a] ++ [b] := by
          intro id hid hmem
          rcases List.mem_append.1 hmem with hmem | hmem
          · exact hs'.apart id hid hmem
          · exact hnew (List.mem_singleton.1 hmem ▸ hid)
        refine (ih hm hp' hs'.placed hapart' ?_).imp fun s₂ hs₂ ↦ ⟨hs₂.1, ?_⟩
        · simp only [List.length_append, List.length_singleton]
          omega
        · exact List.mem_of_getLast? hs₂.2
      · rintro s₂ ⟨hs₂, hgrow, hmem⟩
        refine ⟨hs₂, fun c hc ↦ ?_⟩
        rcases List.mem_append.1 hc with hc | hc
        · exact hgrow.subset (hdone c hc)
        · exact List.mem_singleton.1 hc ▸ hmem
    · rintro s' ⟨hs', hdone⟩
      refine ⟨hs'.finish ⟨n, t, hn⟩ hpath fun b hb ↦ ?_, by simp⟩
      obtain ⟨n', t', hn', hb⟩ := hb
      obtain ⟨rfl, -⟩ := hn.unique hn'
      exact hdone b hb

theorem schedule_ends {n : Node} {t : NodeType} (hn : Present g lib target n t) :
    Ends (schedule g lib target)
      (fun s ↦ Extends g lib [] target [] s.order ∧ s.order.getLast? = some target)
      fun e ↦ ∃ ids, e = .cycle ids ∧ Circular g lib target ids := by
  simp only [schedule, hn.node, hn.isKnown, if_true]
  refine visit_ends (s := {}) g.nodes.length hn ⟨?_, ?_, ?_, ?_⟩ ⟨?_, ?_, ?_⟩ ?_ ?_
  all_goals simp
  · exact ⟨n, t, hn⟩
  · exact .refl

theorem extends_of_schedule {s : Schedule} (hs : schedule g lib target = .ok s) :
    Extends g lib [] target [] s.order := by
  cases hn : g.find? target with
  | none => simp [schedule, hn] at hs
  | some n =>
    cases hk : isKnown lib n with
    | true =>
      obtain ⟨t, ht⟩ := isKnown_iff.1 hk
      have h := schedule_ends ⟨hn, ht⟩
      rw [hs] at h
      exact h.1
    | false =>
      obtain rfl : _ = s := by simpa [schedule, hn, hk] using hs
      exact ⟨⟨List.nodup_nil, by simp, by simp⟩, List.prefix_rfl, by simp, by simp⟩

theorem placed_of_schedule {s : Schedule} (hs : schedule g lib target = .ok s) :
    Placed g lib s.order := (extends_of_schedule hs).placed

/-- A schedule has each node that the target needs once, and after all that this node reads. -/
theorem schedule_order {s : Schedule} (ht : Known g lib target)
    (hs : schedule g lib target = .ok s) :
    s.order.Nodup ∧ s.order.getLast? = some target ∧ (∀ id ∈ s.order, Known g lib id) ∧
      (∀ id, ReflTransGen (Reads g lib) target id → id ∈ s.order) ∧
      ∀ done id rest, s.order = done ++ id :: rest → ∀ b, Reads g lib id b → b ∈ done := by
  obtain ⟨n, t, hn⟩ := ht
  have h := schedule_ends hn
  rw [hs] at h
  obtain ⟨⟨hp, -, -, -⟩, hlast⟩ := h
  refine ⟨hp.nodup, hlast, hp.known, fun id hid ↦ ?_, fun done id rest he b hb ↦ ?_⟩
  · exact hp.closed (List.mem_of_getLast? hlast)
      (ReflTransGen.mono (fun _ _ ↦ Reads.dependsOn) _ _ hid)
  · exact hp.after done id rest he b hb.dependsOn

namespace Sample

def library : Library := .ofList [Catalogue.time, Catalogue.add, Catalogue.loop]

def sum (id left right : String) : Node where
  id := id
  typeName := "Add"
  inputs := [{ key := "a", type := .float, wire := some ⟨left, "out"⟩ },
    { key := "b", type := .float, wire := some ⟨right, "out"⟩ }]

def loop (id : String) (steps : List String) : Node where
  id := id
  typeName := "Loop"
  params := .ofList [("steps", .array (steps.map .string))]

def nested : Graph where
  nodes := [sum "out" "outer" "gone", loop "outer" ["inner", "s"], loop "inner" ["s", "missing"],
    sum "s" "t" "old", { id := "t", typeName := "Time" }, { id := "old", typeName := "Retired" },
    sum "t" "out" "out"]

end Sample

theorem schedule_order_nested :
    ∃ s, schedule Sample.nested Sample.library "out" = .ok s ∧ s.order = ["t", "outer", "out"] ∧
      s.order.Nodup ∧ s.order.getLast? = some "out" ∧
      (∀ id ∈ s.order, Known Sample.nested Sample.library id) ∧
      (∀ id, ReflTransGen (Reads Sample.nested Sample.library) "out" id → id ∈ s.order) ∧
      ∀ done id rest, s.order = done ++ id :: rest →
        ∀ b, Reads Sample.nested Sample.library id b → b ∈ done :=
  ⟨{ order := ["t", "outer", "out"], diagnostics := [.unknownType "old" "Retired"] }, rfl, rfl,
    schedule_order ⟨Sample.sum "out" "outer" "gone", Catalogue.add, rfl, rfl⟩ rfl⟩

end NodeShader.Schedule

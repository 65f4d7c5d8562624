import NodeShader.Proofs.Reads
import Mathlib.Data.List.Perm.Subperm

namespace NodeShader.Schedule

open Relation

variable (g : Graph) (lib : Library)

/-- All that a search for what a loop reads does at one of its steps. -/
theorem stepReads_cases (inner : Node → List String → List Node × List String)
    (found : List Node × List String) (c : String) :
    (¬ Known g lib c ∧ stepReads g lib inner found c = found) ∨
    ∃ n t, Present g lib c n t ∧
      (t.role ≠ .loop ∧ stepReads g lib inner found c = (found.1 ++ sources g n t, found.2) ∨
        t.role = .loop ∧ c ∈ found.2 ∧
          stepReads g lib inner found c = (found.1 ++ sources g n t ++ [n], found.2) ∨
        t.role = .loop ∧ c ∉ found.2 ∧
          stepReads g lib inner found c =
            (found.1 ++ sources g n t ++ (inner n (c :: found.2)).1, (inner n (c :: found.2)).2)) := by
  cases hn : g.find? c with
  | none =>
    refine .inl ⟨?_, by simp [stepReads, hn]⟩
    rintro ⟨n, t, h⟩
    simp [h.node] at hn
  | some n =>
    cases ht : lib.find? n.typeName with
    | none =>
      refine .inl ⟨?_, by simp [stepReads, hn, ht]⟩
      rintro ⟨n', t, h⟩
      obtain rfl := Option.some.inj (hn.symm.trans h.node)
      simp [h.type] at ht
    | some t =>
      have hid : n.id = c := Graph.id_of_find? hn
      refine .inr ⟨n, t, ⟨hn, ht⟩, ?_⟩
      by_cases hl : t.role = .loop
      · by_cases hc : c ∈ found.2
        · exact .inr (.inl ⟨hl, hc, by simp [stepReads, hn, ht, hl, hid, hc]⟩)
        · exact .inr (.inr ⟨hl, hc, by simp [stepReads, hn, ht, hl, hid, hc]⟩)
      · exact .inl ⟨hl, by simp [stepReads, hn, ht, hl]⟩

structure HasRoom (room : Nat) (seen : List String) : Prop where
  nodup : seen.Nodup
  loops : ∀ l ∈ seen, IsLoop g lib l
  enough : g.nodes.length < room + seen.length

variable {g lib} {room : Nat} {seen : List String} {found : List Node × List String}
  {inner : Node → List String → List Node × List String}

theorem length_le_of_known {ids : List String} (hn : ids.Nodup) (hk : ∀ id ∈ ids, Known g lib id) :
    ids.length ≤ g.nodes.length := by
  have hsub : ids ⊆ g.nodes.map (·.id) := by
    intro id hid
    obtain ⟨n, t, h⟩ := hk id hid
    exact List.mem_map.2 ⟨n, Graph.mem_of_find? h.node, h.id_eq⟩
  simpa using (List.subperm_of_subset hn hsub).length_le

namespace HasRoom

theorem pos (h : HasRoom g lib room seen) : 0 < room := by
  have := length_le_of_known h.nodup fun l hl ↦ (h.loops l hl).known
  have := h.enough
  omega

theorem singleton {a : String} (ha : IsLoop g lib a) : HasRoom g lib g.nodes.length [a] where
  nodup := List.nodup_singleton a
  loops l hl := List.mem_singleton.1 hl ▸ ha
  enough := by simp

theorem cons {c : String} (h : HasRoom g lib (room + 1) seen) (hc : IsLoop g lib c)
    (hnew : c ∉ seen) : HasRoom g lib room (c :: seen) where
  nodup := List.nodup_cons.2 ⟨hnew, h.nodup⟩
  loops := List.forall_mem_cons.2 ⟨hc, h.loops⟩
  enough := by
    have := h.enough
    simp only [List.length_cons]
    omega

theorem more (h : HasRoom g lib room seen) : HasRoom g lib (room + 1) seen where
  nodup := h.nodup
  loops := h.loops
  enough := by
    have := h.enough
    omega

theorem stepReads (h : HasRoom g lib (room + 1) found.2)
    (hi : ∀ n seen, HasRoom g lib room seen → HasRoom g lib room (inner n seen).2) (c : String) :
    HasRoom g lib (room + 1) (stepReads g lib inner found c).2 := by
  obtain ⟨-, he⟩ | ⟨n, t, hn, ⟨-, he⟩ | ⟨-, -, he⟩ | ⟨ht, hc, he⟩⟩ :=
    stepReads_cases g lib inner found c <;> rw [he]
  · exact h
  · exact h
  · exact h
  · exact (hi n _ (h.cons ⟨n, t, hn, ht⟩ hc)).more

theorem loopReads (h : HasRoom g lib room seen) (n : Node) :
    HasRoom g lib room (loopReads g lib room n seen).2 := by
  induction room generalizing n seen with
  | zero => exact absurd h.pos (Nat.lt_irrefl 0)
  | succ room ih =>
    rw [Schedule.loopReads]
    refine List.foldlRecOn (motive := fun found : List Node × List String ↦
      HasRoom g lib (room + 1) found.2) n.steps _ h ?_
    intro found hfound c _
    exact hfound.stepReads (fun n seen h ↦ ih h n) c

end HasRoom

def stepsOf (g : Graph) (id : String) : List String := ((g.find? id).map Node.steps).getD []

theorem stepsOf_of_present {id : String} {n : Node} {t : NodeType} (h : Present g lib id n t) :
    stepsOf g id = n.steps := by
  simp [stepsOf, h.node]

variable (g lib) in
/-- A search below the loop `p` has met the loops `new` beside those it had `seen`, and gone through
the steps `listed`. A loop that is listed more often than it is new is itself among the nodes
read. -/
structure Tally (p : String) (seen new listed : List String) (found : List Node × List String) :
    Prop where
  older : found.2 = new ++ seen
  met : ∀ c ∈ listed, IsLoop g lib c → c ∈ found.2
  once : ∀ c, IsLoop g lib c → new.count c ≤ listed.count c
  reached : ∀ c ∈ listed, Known g lib c → TransGen (Runs g lib) p c
  gathered : ∀ c ∈ listed, ∀ n t, Present g lib c n t → sources g n t ⊆ found.1
  sound : ∀ m ∈ found.1, (∃ c ∈ listed, ∃ n t, Present g lib c n t ∧ m ∈ sources g n t) ∨
    ∃ t, Present g lib m.id m t ∧ t.role = .loop ∧ new.count m.id < listed.count m.id
  complete : ∀ c n t, Present g lib c n t → t.role = .loop → new.count c < listed.count c →
    n ∈ found.1

namespace Tally

variable {p d : String} {new new' listed listed' done : List String}
  {found' : List Node × List String} {n : Node} {t : NodeType}

theorem start (p : String) (seen : List String) : Tally g lib p seen [] [] ([], seen) := by
  constructor <;> simp

theorem perm (h : Tally g lib p seen new listed found) (hp : listed.Perm listed') :
    Tally g lib p seen new listed' found where
  older := h.older
  met c hc := h.met c (hp.mem_iff.2 hc)
  once c hc := hp.count_eq c ▸ h.once c hc
  reached c hc := h.reached c (hp.mem_iff.2 hc)
  gathered c hc := h.gathered c (hp.mem_iff.2 hc)
  sound m hm := by
    rcases h.sound m hm with ⟨c, hc, hs⟩ | ⟨t, ht, hl, hlt⟩
    · exact .inl ⟨c, hp.mem_iff.1 hc, hs⟩
    · exact .inr ⟨t, ht, hl, hp.count_eq _ ▸ hlt⟩
  complete c n t hn ht hlt := h.complete c n t hn ht (hp.count_eq c ▸ hlt)

/-- One search after the other. -/
theorem trans (h : Tally g lib p seen new listed found)
    (h' : Tally g lib p found.2 new' listed' found') :
    Tally g lib p seen (new' ++ new) (listed ++ listed') (found.1 ++ found'.1, found'.2) := by
  have hnew : ∀ c, (new' ++ new).count c = new'.count c + new.count c := fun c ↦ List.count_append
  have hlisted : ∀ c, (listed ++ listed').count c = listed.count c + listed'.count c := fun c ↦
    List.count_append
  refine ⟨?_, fun c hc hl ↦ ?_, fun c hc ↦ ?_, fun c hc ↦ ?_, fun c hc n t hn ↦ ?_, fun m hm ↦ ?_,
    fun c n t hn ht hlt ↦ ?_⟩
  · rw [h'.older, h.older, List.append_assoc]
  · rcases List.mem_append.1 hc with hc | hc
    · have hfound := h.met c hc hl
      rw [h'.older]
      exact List.mem_append_right new' hfound
    · exact h'.met c hc hl
  · have := h.once c hc
    have := h'.once c hc
    rw [hnew, hlisted]
    omega
  · rcases List.mem_append.1 hc with hc | hc
    · exact h.reached c hc
    · exact h'.reached c hc
  · rcases List.mem_append.1 hc with hc | hc
    · exact List.subset_append_of_subset_left _ (h.gathered c hc n t hn)
    · exact List.subset_append_of_subset_right _ (h'.gathered c hc n t hn)
  · rcases List.mem_append.1 hm with hm | hm
    · rcases h.sound m hm with ⟨c, hc, hs⟩ | ⟨t, ht, hl, hlt⟩
      · exact .inl ⟨c, List.mem_append_left _ hc, hs⟩
      · have := h'.once m.id ⟨m, t, ht, hl⟩
        exact .inr ⟨t, ht, hl, by rw [hnew, hlisted]; omega⟩
    · rcases h'.sound m hm with ⟨c, hc, hs⟩ | ⟨t, ht, hl, hlt⟩
      · exact .inl ⟨c, List.mem_append_right _ hc, hs⟩
      · have := h.once m.id ⟨m, t, ht, hl⟩
        exact .inr ⟨t, ht, hl, by rw [hnew, hlisted]; omega⟩
  · rw [hnew, hlisted] at hlt
    by_cases hold : new.count c < listed.count c
    · exact List.mem_append_left _ (h.complete c n t hn ht hold)
    · exact List.mem_append_right _ (h'.complete c n t hn ht (by omega))

/-- A step that is no loop, or of which nothing is known. -/
theorem plain (hd : ¬ IsLoop g lib d) (hr : Known g lib d → Runs g lib p d) {ms : List Node}
    (hms : ∀ m, m ∈ ms ↔ ∃ n t, Present g lib d n t ∧ m ∈ sources g n t) :
    Tally g lib p seen [] [d] (ms, seen) := by
  have hcount : ∀ c, IsLoop g lib c → [d].count c = 0 := by
    intro c hc
    rw [List.count_eq_zero, List.mem_singleton]
    intro he
    exact hd (he ▸ hc)
  refine ⟨rfl, fun c hc hl ↦ ?_, fun c hc ↦ Nat.zero_le _, fun c hc hk ↦ ?_,
    fun c hc n t hn m hm ↦ ?_, fun m hm ↦ ?_, fun c n t hn ht hlt ↦ ?_⟩
  · exact absurd (List.mem_singleton.1 hc ▸ hl) hd
  · obtain rfl := List.mem_singleton.1 hc
    exact .single (hr hk)
  · obtain rfl := List.mem_singleton.1 hc
    exact (hms m).2 ⟨n, t, hn, hm⟩
  · exact .inl ⟨d, List.mem_singleton_self d, (hms m).1 hm⟩
  · rw [hcount c ⟨n, t, hn, ht⟩] at hlt
    exact absurd hlt (Nat.not_lt_zero _)

/-- A loop that was met before. -/
theorem again (hn : Present g lib d n t) (ht : t.role = .loop) (hr : Runs g lib p d)
    (hd : d ∈ seen) : Tally g lib p seen [] [d] (sources g n t ++ [n], seen) := by
  refine ⟨rfl, fun c hc _ ↦ ?_, fun c hc ↦ Nat.zero_le _, fun c hc _ ↦ ?_, fun c hc m u hm ↦ ?_,
    fun m hm ↦ ?_, fun c m u hm _ hlt ↦ ?_⟩
  · exact List.mem_singleton.1 hc ▸ hd
  · exact List.mem_singleton.1 hc ▸ .single hr
  · obtain rfl := List.mem_singleton.1 hc
    obtain ⟨rfl, rfl⟩ := hn.unique hm
    exact List.subset_append_left _ _
  · rcases List.mem_append.1 hm with hm | hm
    · exact .inl ⟨d, List.mem_singleton_self d, n, t, hn, hm⟩
    · obtain rfl := List.mem_singleton.1 hm
      exact .inr ⟨t, hn.self, ht, by simp [hn.id_eq]⟩
  · obtain rfl := List.mem_singleton.1 (List.count_pos_iff.1 hlt)
    obtain ⟨rfl, -⟩ := hn.unique hm
    simp

/-- A new loop, together with the search below it. -/
theorem nested (hn : Present g lib d n t) (hr : Runs g lib p d)
    (h : Tally g lib d (d :: seen) new listed found) :
    Tally g lib p seen (new ++ [d]) (d :: listed) (sources g n t ++ found.1, found.2) := by
  have hnew : ∀ c, (new ++ [d]).count c = new.count c + [d].count c := fun c ↦ List.count_append
  have hlisted : ∀ c, (d :: listed).count c = listed.count c + [d].count c := by
    intro c
    rw [← List.singleton_append, List.count_append, Nat.add_comm]
  refine ⟨?_, fun c hc hl ↦ ?_, fun c hc ↦ ?_, fun c hc hk ↦ ?_, fun c hc m u hm ↦ ?_,
    fun m hm ↦ ?_, fun c m u hm hu hlt ↦ ?_⟩
  · rw [h.older]
    simp
  · rcases List.mem_cons.1 hc with rfl | hc
    · rw [h.older]
      simp
    · exact h.met c hc hl
  · have := h.once c hc
    rw [hnew, hlisted]
    omega
  · rcases List.mem_cons.1 hc with rfl | hc
    · exact .single hr
    · exact .head hr (h.reached c hc hk)
  · rcases List.mem_cons.1 hc with rfl | hc
    · obtain ⟨rfl, rfl⟩ := hn.unique hm
      exact List.subset_append_left _ _
    · exact List.subset_append_of_subset_right _ (h.gathered c hc m u hm)
  · rcases List.mem_append.1 hm with hm | hm
    · exact .inl ⟨d, List.mem_cons_self, n, t, hn, hm⟩
    · rcases h.sound m hm with ⟨c, hc, hs⟩ | ⟨u, hu, hl, hlt⟩
      · exact .inl ⟨c, List.mem_cons_of_mem d hc, hs⟩
      · exact .inr ⟨u, hu, hl, by rw [hnew, hlisted]; omega⟩
  · rw [hnew, hlisted] at hlt
    exact List.mem_append_right _ (h.complete c m u hm hu (by omega))

end Tally

variable (g lib) in
def Tallies (room : Nat) (inner : Node → List String → List Node × List String) : Prop :=
  ∀ c n t seen, Present g lib c n t → t.role = .loop → HasRoom g lib room seen →
    ∃ new, Tally g lib c seen new ((c :: new).flatMap (stepsOf g)) (inner n seen)

section

variable {p : String} {new done : List String}

/-- What one step adds to a search, the steps of new loops included. -/
theorem Tallies.step (hi : Tallies g lib room inner) (hroom : HasRoom g lib (room + 1) found.2)
    {d : String} (hd : Known g lib d → Runs g lib p d) :
    ∃ new reads seen, stepReads g lib inner found d = (found.1 ++ reads, seen) ∧
      Tally g lib p found.2 new (d :: new.flatMap (stepsOf g)) (reads, seen) := by
  obtain ⟨hk, he⟩ | ⟨n, t, hn, ⟨ht, he⟩ | ⟨ht, hm, he⟩ | ⟨ht, hm, he⟩⟩ :=
    stepReads_cases g lib inner found d <;> rw [he]
  · refine ⟨[], [], found.2, by simp, .plain (fun hl ↦ hk hl.known) hd fun m ↦ ?_⟩
    simp only [List.not_mem_nil, false_iff]
    intro ⟨n, t, hn, _⟩
    exact hk ⟨n, t, hn⟩
  · refine ⟨[], sources g n t, found.2, rfl, .plain (fun hl ↦ ?_) hd fun m ↦ ?_⟩
    · obtain ⟨n', t', hn', ht'⟩ := hl
      exact ht ((hn.unique hn').2 ▸ ht')
    · constructor
      · intro hm
        exact ⟨n, t, hn, hm⟩
      · intro ⟨n', t', hn', hm⟩
        obtain ⟨rfl, rfl⟩ := hn.unique hn'
        exact hm
  · exact ⟨[], sources g n t ++ [n], found.2, by simp, .again hn ht (hd ⟨n, t, hn⟩) hm⟩
  · obtain ⟨new, htally⟩ := hi d n t (d :: found.2) hn ht (hroom.cons ⟨n, t, hn, ht⟩ hm)
    refine ⟨new ++ [d], sources g n t ++ (inner n (d :: found.2)).1, (inner n (d :: found.2)).2,
      by simp, ?_⟩
    refine (htally.nested hn (hd ⟨n, t, hn⟩)).perm ?_
    rw [List.flatMap_append, List.flatMap_singleton, List.flatMap_cons]
    exact List.perm_append_comm.cons d

theorem Tally.foldl (h : Tally g lib p seen new (done ++ new.flatMap (stepsOf g)) found)
    (hi : Tallies g lib room inner)
    (hinner : ∀ n seen, HasRoom g lib room seen → HasRoom g lib room (inner n seen).2)
    (hroom : HasRoom g lib (room + 1) found.2) (steps : List String)
    (hsteps : ∀ c ∈ steps, Known g lib c → Runs g lib p c) :
    ∃ new', Tally g lib p seen new' (done ++ steps ++ new'.flatMap (stepsOf g))
      (steps.foldl (stepReads g lib inner) found) := by
  induction steps generalizing found new done with
  | nil => exact ⟨new, by simpa using h⟩
  | cons d steps ih =>
    have hroom' := hroom.stepReads hinner d
    obtain ⟨new', reads, seen', he, hstep⟩ := hi.step hroom (hsteps d List.mem_cons_self)
    have hnext : Tally g lib p seen (new' ++ new)
        (done ++ [d] ++ (new' ++ new).flatMap (stepsOf g)) (stepReads g lib inner found d) := by
      rw [he]
      refine (h.trans hstep).perm ?_
      rw [List.perm_iff_count]
      intro c
      simp only [List.flatMap_append, List.count_append, List.count_cons, List.count_nil]
      omega
    obtain ⟨new₂, h₂⟩ := ih hnext hroom' fun c hc ↦ hsteps c (List.mem_cons_of_mem d hc)
    exact ⟨new₂, by simpa using h₂⟩

end

theorem loopReads_tallies (room : Nat) : Tallies g lib room (loopReads g lib room) := by
  induction room with
  | zero => exact fun c n t seen _ _ hroom ↦ absurd hroom.pos (Nat.lt_irrefl 0)
  | succ room ih =>
    intro c n t seen hc ht hroom
    have hstart : Tally g lib c seen [] ([] ++ [].flatMap (stepsOf g)) ([], seen) := .start c seen
    obtain ⟨new, htally⟩ := hstart.foldl ih (fun n seen h ↦ h.loopReads n) hroom n.steps
      fun d hd hk ↦ ⟨n, t, hc, ht, hd, hk⟩
    refine ⟨new, ?_⟩
    rw [List.flatMap_cons, stepsOf_of_present hc]
    exact htally

end NodeShader.Schedule

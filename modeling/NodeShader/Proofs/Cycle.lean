import NodeShader.Proofs.Order

namespace NodeShader.Schedule

open Relation

variable {g : Graph} {lib : Library} {target a b : String}

/-- A dependency on a loop that was met twice can be put off to the end of a way. -/
theorem reads_then_nests (h : ReflTransGen (DependsOn g lib) a b) :
    ∃ l, ReflTransGen (Reads g lib) a l ∧ ReflTransGen (Nests g lib) l b := by
  induction h with
  | refl => exact ⟨a, .refl, .refl⟩
  | tail _ hd ih =>
    obtain ⟨l, hl, hb⟩ := ih
    rcases hd.reads_or_nests with hr | hn
    · exact ⟨_, hl.tail (hr.head (runs_of_nests hb)), .refl⟩
    · exact ⟨l, hl, hb.trans hn.to_reflTransGen⟩

/-- A way of dependencies goes down through loops only, or a first part of it can be read. -/
theorem nests_or_reads_then_nests (h : TransGen (DependsOn g lib) a b) :
    TransGen (Nests g lib) a b ∨
      ∃ c, Reads g lib a c ∧ ∃ l, ReflTransGen (Reads g lib) c l ∧ ReflTransGen (Nests g lib) l b := by
  induction h with
  | single hd => exact hd.reads_or_nests.symm.imp_right fun hr ↦ ⟨_, hr, _, .refl, .refl⟩
  | tail _ hd ih =>
    rcases ih with hn | ⟨c, hc, l, hl, hb⟩
    · rcases hd.reads_or_nests with hr | hn'
      · exact .inr ⟨_, hr.head (runs_of_nests hn.to_reflTransGen), _, .refl, .refl⟩
      · exact .inl (hn.trans hn')
    · rcases hd.reads_or_nests with hr | hn
      · exact .inr ⟨c, hc, _, hl.tail (hr.head (runs_of_nests hb)), .refl⟩
      · exact .inr ⟨c, hc, l, hl, hb.trans hn.to_reflTransGen⟩

/-- Nodes depend on themselves just if they read themselves or hold a loop that runs itself. -/
theorem exists_dependsOn_cycle_iff :
    (∃ a, ReflTransGen (DependsOn g lib) target a ∧ TransGen (DependsOn g lib) a a) ↔
      (∃ a, ReflTransGen (Reads g lib) target a ∧ TransGen (Reads g lib) a a) ∨
      ∃ l c, ReflTransGen (Reads g lib) target l ∧ ReflTransGen (Nests g lib) l c ∧
        TransGen (Nests g lib) c c := by
  constructor
  · rintro ⟨a, ha, hc⟩
    obtain ⟨l, hl, hla⟩ := reads_then_nests ha
    rcases nests_or_reads_then_nests hc with hn | ⟨c, hr, k, hk, hka⟩
    · exact .inr ⟨l, a, hl, hla, hn⟩
    · -- Whatever holds `a` reads `c` too, so both ways into the circle can be read.
      have hlc : Reads g lib l c := hr.head (runs_of_nests hla)
      have hkc : Reads g lib k c := hr.head (runs_of_nests hka)
      exact .inl ⟨k, (hl.tail hlc).trans hk, .head' hkc hk⟩
  · have hmono : Reads g lib ≤ DependsOn g lib := fun _ _ ↦ Reads.dependsOn
    rintro (⟨a, ha, hc⟩ | ⟨l, c, hl, hlc, hc⟩)
    · exact ⟨a, ReflTransGen.mono hmono _ _ ha, TransGen.mono hmono _ _ hc⟩
    · obtain ⟨d, hd, hdd⟩ := exists_dependsOn_of_nests hlc hc
      exact ⟨d, (ReflTransGen.mono hmono _ _ hl).tail hd, .single (dependsOn_self_of_nests hdd)⟩

theorem Circular.exists_cycle {ids : List String} (h : Circular g lib target ids) :
    ∃ a, ReflTransGen (DependsOn g lib) target a ∧ TransGen (DependsOn g lib) a a := by
  obtain ⟨a, rest, rfl⟩ := List.exists_cons_of_ne_nil h.nonempty
  have hchain : (a :: (rest ++ [a])).IsChain (TransGen (DependsOn g lib)) := by
    simpa using h.chain.imp fun _ _ ↦ TransGen.single
  exact ⟨a, h.reached a List.mem_cons_self, hchain.rel_cons (by simp)⟩

theorem circular_of_schedule {ids : List String} (ht : Known g lib target)
    (h : schedule g lib target = .error (.cycle ids)) : Circular g lib target ids := by
  obtain ⟨n, t, hn⟩ := ht
  have he := schedule_ends hn
  rw [h] at he
  obtain ⟨ids', hids, hc⟩ := he
  cases hids
  exact hc

theorem schedule_eq_cycle_iff (ht : Known g lib target) :
    (∃ ids, schedule g lib target = .error (.cycle ids)) ↔
      ∃ a, ReflTransGen (DependsOn g lib) target a ∧ TransGen (DependsOn g lib) a a := by
  constructor
  · rintro ⟨ids, he⟩
    exact (circular_of_schedule ht he).exists_cycle
  · rintro ⟨a, ha, hc⟩
    obtain ⟨n, t, hn⟩ := ht
    have h := schedule_ends hn
    cases hs : schedule g lib target with
    | ok s =>
      rw [hs] at h
      obtain ⟨⟨hp, -, -, -⟩, hlast⟩ := h
      exact absurd hc (hp.acyclic (hp.closed (List.mem_of_getLast? hlast) ha))
    | error e =>
      rw [hs] at h
      obtain ⟨ids, rfl, -⟩ := h
      exact ⟨ids, rfl⟩

/-- There is no schedule just if a node that the target needs reads itself, or runs, at whatever
depth, a loop that runs itself. The circle that is reported is one of distinct nodes that depend on
each other in turn, and the target leads to them. -/
theorem schedule_cycle (ht : Known g lib target) :
    ((∃ ids, schedule g lib target = .error (.cycle ids)) ↔
      (∃ a, ReflTransGen (Reads g lib) target a ∧ TransGen (Reads g lib) a a) ∨
      ∃ l c, ReflTransGen (Reads g lib) target l ∧ ReflTransGen (Nests g lib) l c ∧
        TransGen (Nests g lib) c c) ∧
    ∀ ids, schedule g lib target = .error (.cycle ids) → Circular g lib target ids ∧
      ∀ id ∈ ids, ∃ l, ReflTransGen (Reads g lib) target l ∧ ReflTransGen (Nests g lib) l id := by
  refine ⟨(schedule_eq_cycle_iff ht).trans exists_dependsOn_cycle_iff, fun ids h ↦ ?_⟩
  have hc := circular_of_schedule ht h
  exact ⟨hc, fun id hid ↦ reads_then_nests (hc.reached id hid)⟩

/-- Two loops that run each other, below a third one that nothing else would stop. -/
def Sample.tangled : Graph where
  nodes := [sum "out" "outer" "gone", loop "outer" ["p"], loop "p" ["q", "q"], loop "q" ["p"]]

theorem schedule_cycle_tangled :
    Known Sample.tangled Sample.library "out" ∧
      schedule Sample.tangled Sample.library "out" = .error (.cycle ["p"]) ∧
      ((∃ a, ReflTransGen (Reads Sample.tangled Sample.library) "out" a ∧
          TransGen (Reads Sample.tangled Sample.library) a a) ∨
        ∃ l c, ReflTransGen (Reads Sample.tangled Sample.library) "out" l ∧
          ReflTransGen (Nests Sample.tangled Sample.library) l c ∧
          TransGen (Nests Sample.tangled Sample.library) c c) ∧
      Circular Sample.tangled Sample.library "out" ["p"] := by
  have ht : Known Sample.tangled Sample.library "out" :=
    ⟨Sample.sum "out" "outer" "gone", Catalogue.add, rfl, rfl⟩
  have hs : schedule Sample.tangled Sample.library "out" = .error (.cycle ["p"]) := rfl
  obtain ⟨hiff, hcirc⟩ := schedule_cycle ht
  exact ⟨ht, hs, hiff.1 ⟨_, hs⟩, (hcirc _ hs).1⟩

end NodeShader.Schedule

import NodeShader.Proofs.Order

namespace NodeShader.Schedule

open Relation

variable {g : Graph} {lib : Library} {target a b c : String}

theorem Revisits.trans (h : Revisits g lib a b) (h' : Revisits g lib b c) : Revisits g lib a c := by
  by_cases hc : c = b
  · exact hc ▸ h
  · obtain ⟨hloop, ls, hnodup, hls, hcount⟩ := h'
    rw [if_neg hc] at hcount
    refine ⟨hloop, ls, hnodup, fun l hl ↦ ?_, ?_⟩
    · obtain ⟨hl, hbl⟩ := hls l hl
      exact ⟨hl, h.nests.to_reflTransGen.trans hbl⟩
    · split <;> omega

/-- At most one loop that is only met again stands at the end of a way of dependencies. -/
theorem reflTransGen_dependsOn_iff :
    ReflTransGen (DependsOn g lib) a b ↔
      ReflTransGen (Reads g lib) a b ∨
        ∃ l, ReflTransGen (Reads g lib) a l ∧ Revisits g lib l b := by
  constructor
  · intro h
    induction h with
    | refl => exact .inl .refl
    | tail _ hd ih =>
      rcases ih with hread | ⟨l, hl, hagain⟩
      · rcases dependsOn_iff.1 hd with hnext | hnext
        · exact .inl (hread.tail hnext)
        · exact .inr ⟨_, hread, hnext⟩
      · rcases dependsOn_iff.1 hd with hnext | hnext
        · -- What a loop below `l` reads, `l` reads itself.
          have hbelow := runs_of_nests hagain.nests.to_reflTransGen
          exact .inl (hl.tail (hnext.head hbelow))
        · exact .inr ⟨l, hl, hagain.trans hnext⟩
  · have hmono : Reads g lib ≤ DependsOn g lib := fun _ _ ↦ Reads.dependsOn
    intro h
    rcases h with hread | ⟨l, hl, hagain⟩
    · exact ReflTransGen.mono hmono a b hread
    · exact (ReflTransGen.mono hmono a l hl).tail (dependsOn_iff.2 (.inr hagain))

/-- Beside what the target needs, a schedule holds the loops that come up at least twice among the
steps below a loop that the target needs, and nothing else. -/
theorem schedule_extent {s : Schedule} (ht : Known g lib target)
    (hs : schedule g lib target = .ok s) :
    (∀ id, id ∈ s.order ↔ ReflTransGen (Reads g lib) target id ∨
      ∃ l, l ≠ id ∧ ReflTransGen (Reads g lib) target l ∧ Revisits g lib l id) ∧
    ∀ id ∈ s.order, ¬ IsLoop g lib id → ReflTransGen (Reads g lib) target id := by
  obtain ⟨n, t, hn⟩ := ht
  have h := schedule_ends hn
  rw [hs] at h
  obtain ⟨⟨hplaced, -, -, hreached⟩, hlast⟩ := h
  have hclosed : ∀ id, id ∈ s.order ↔ ReflTransGen (DependsOn g lib) target id := fun id ↦
    ⟨fun hid ↦ hreached id hid List.not_mem_nil, hplaced.closed (List.mem_of_getLast? hlast)⟩
  have hmem : ∀ id, id ∈ s.order ↔ ReflTransGen (Reads g lib) target id ∨
      ∃ l, l ≠ id ∧ ReflTransGen (Reads g lib) target l ∧ Revisits g lib l id := by
    intro id
    rw [hclosed, reflTransGen_dependsOn_iff]
    refine or_congr_right (exists_congr fun l ↦ ⟨fun ⟨hl, hagain⟩ ↦ ⟨?_, hl, hagain⟩, And.right⟩)
    -- A loop that comes up below itself would be a circle.
    rintro rfl
    have hself := TransGen.single (dependsOn_iff.2 (.inr hagain))
    exact hplaced.acyclic ((hclosed l).2 (reflTransGen_dependsOn_iff.2 (.inl hl))) hself
  refine ⟨hmem, fun id hid hloop ↦ ?_⟩
  rcases (hmem id).1 hid with hread | ⟨l, -, -, hagain⟩
  · exact hread
  · exact absurd hagain.1 hloop

def Sample.twice : Graph where
  nodes := [loop "outer" ["inner", "inner"], loop "inner" ["s"], sum "s" "t" "gone",
    { id := "t", typeName := "Time" }]

theorem schedule_extent_twice :
    Known Sample.twice Sample.library "outer" ∧
      ∃ s, schedule Sample.twice Sample.library "outer" = .ok s ∧ "inner" ∈ s.order ∧
        (ReflTransGen (Reads Sample.twice Sample.library) "outer" "inner" ∨
          ∃ l, l ≠ "inner" ∧ ReflTransGen (Reads Sample.twice Sample.library) "outer" l ∧
            Revisits Sample.twice Sample.library l "inner") ∧
        ReflTransGen (Reads Sample.twice Sample.library) "outer" "t" := by
  have ht : Known Sample.twice Sample.library "outer" :=
    ⟨Sample.loop "outer" ["inner", "inner"], Catalogue.loop, rfl, rfl⟩
  have hs : schedule Sample.twice Sample.library "outer" =
    .ok { order := ["t", "inner", "outer"] } := rfl
  obtain ⟨hmem, hplain⟩ := schedule_extent ht hs
  refine ⟨ht, _, hs, by simp, (hmem "inner").1 (by simp), hplain "t" (by simp) ?_⟩
  intro ⟨n, t, hn, hloop⟩
  have htime : Present Sample.twice Sample.library "t" _ Catalogue.time := ⟨rfl, rfl⟩
  obtain ⟨-, rfl⟩ := hn.unique htime
  cases hloop

theorem schedule_surplus :
    schedule Sample.twice .builtin "outer" = .ok { order := ["t", "inner", "outer"] } ∧
      (∀ a, ¬ Wired Sample.twice .builtin a "inner") ∧
      ¬ ReflTransGen (Reads Sample.twice .builtin) "outer" "inner" := by
  have hwired : ∀ a, ¬ Wired Sample.twice .builtin a "inner" := by
    intro a ha
    obtain ⟨n, t, hn, ⟨i, hi, w, hw, hinner⟩, -⟩ := ha
    have hall : ∀ n ∈ Sample.twice.nodes, ∀ t, ∀ i ∈ n.inlets t, ∀ w, i.wire = some w →
        w.node ≠ "inner" := by
      simp [Sample.twice, Sample.sum, Sample.loop, Node.inlets]
    exact hall n (Graph.mem_of_find? hn.node) t i hi w hw hinner
  refine ⟨by decide +kernel, hwired, fun hread ↦ ?_⟩
  rcases hread.cases_tail with he | ⟨a, -, c, -, hc⟩
  · exact absurd he (by decide)
  · exact hwired c hc

end NodeShader.Schedule

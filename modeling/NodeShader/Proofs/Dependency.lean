import NodeShader.Proofs.LoopSearch
import Mathlib.Data.List.Flatten
import Mathlib.Data.List.Perm.Basic

namespace NodeShader.Schedule

open Relation

variable {g : Graph} {lib : Library} {a b : String} {n m : Node} {t : NodeType}

theorem mem_reads (hn : Present g lib a n t) :
    m ∈ reads g lib n ↔
      m ∈ sources g n t ∨ t.role = .loop ∧ m ∈ (loopReads g lib g.nodes.length n [a]).1 := by
  simp only [reads, hn.type, hn.id_eq, List.mem_append]
  split <;> simp_all

theorem mem_dependencies :
    b ∈ dependencies g lib n ↔ ∃ m ∈ reads g lib n, isKnown lib m = true ∧ m.id = b := by
  simp [dependencies, and_assoc]

theorem DependsOn.of_mem_reads {u : NodeType} (hn : Present g lib a n t)
    (hm : m ∈ reads g lib n) (hb : Present g lib b m u) : DependsOn g lib a b :=
  ⟨n, t, hn, mem_dependencies.2 ⟨m, hm, hb.isKnown, hb.id_eq⟩⟩

theorem Nests.mem_stepsOf {l : String} (h : Nests g lib l b) : b ∈ stepsOf g l := by
  obtain ⟨⟨n, t, hn, -, hb, -⟩, -⟩ := h
  rw [stepsOf_of_present hn]
  exact hb

/-- The search for what a loop reads meets the loops below it, each once. -/
theorem loopReads_tally (hn : Present g lib a n t) (ht : t.role = .loop) :
    ∃ new, (a :: new).Nodup ∧ (∀ l, l ∈ a :: new ↔ ReflTransGen (Nests g lib) a l) ∧
      Tally g lib a [a] new ((a :: new).flatMap (stepsOf g))
        (loopReads g lib g.nodes.length n [a]) := by
  have hstart : HasRoom g lib g.nodes.length [a] := .singleton ⟨n, t, hn, ht⟩
  obtain ⟨new, htally⟩ := loopReads_tallies g.nodes.length a n t [a] hn ht hstart
  have hroom := hstart.loopReads n
  have hperm : (loopReads g lib g.nodes.length n [a]).2.Perm (a :: new) := by
    rw [htally.older]
    exact List.perm_append_comm
  refine ⟨new, hperm.nodup hroom.nodup, fun l ↦ ⟨fun hl ↦ ?_, fun hl ↦ ?_⟩, htally⟩
  · rcases List.mem_cons.1 hl with rfl | hnew
    · exact .refl
    · have hloop := hroom.loops l (hperm.mem_iff.2 hl)
      have honce := htally.once l hloop
      have hpos := List.count_pos_iff.2 hnew
      have hlisted := List.count_pos_iff.1 (Nat.lt_of_lt_of_le hpos honce)
      exact nests_of_runs (htally.reached l hlisted hloop.known).to_reflTransGen hloop
  · induction hl with
    | refl => exact List.mem_cons_self
    | tail _ hc ih =>
      have hlisted := List.mem_flatMap.2 ⟨_, ih, hc.mem_stepsOf⟩
      exact hperm.mem_iff.1 (htally.met _ hlisted hc.2)

/-- What is wired to a step, at any depth, is read by the loop. -/
theorem sources_subset_reads {c : String} {k : Node} {v : NodeType} (hn : Present g lib a n t)
    (hc : ReflTransGen (Runs g lib) a c) (hk : Present g lib c k v) :
    sources g k v ⊆ reads g lib n := by
  intro m hm
  rcases reflTransGen_iff_eq_or_transGen.1 hc with rfl | hc
  · obtain ⟨rfl, rfl⟩ := hn.unique hk
    exact (mem_reads hn).2 (.inl hm)
  · obtain ⟨d, ⟨n', t', hn', ht, -⟩, -⟩ := TransGen.head'_iff.1 hc
    obtain ⟨rfl, rfl⟩ := hn.unique hn'
    obtain ⟨l, hl, hlc⟩ := TransGen.tail'_iff.1 hc
    obtain ⟨new, -, hmem, htally⟩ := loopReads_tally hn ht
    have hbelow := (hmem l).2 (nests_of_runs hl hlc.isLoop)
    obtain ⟨x, y, hxy, -, hstep, -⟩ := hlc
    rw [← stepsOf_of_present hxy] at hstep
    have hlisted := List.mem_flatMap.2 ⟨l, hbelow, hstep⟩
    exact (mem_reads hn).2 (.inr ⟨ht, htally.gathered c hlisted k v hk hm⟩)

theorem Reads.dependsOn (h : Reads g lib a b) : DependsOn g lib a b := by
  obtain ⟨c, hc, hw⟩ := h
  obtain ⟨m, u, hm⟩ := hw.known
  obtain ⟨k, v, hk, -⟩ := id hw
  obtain ⟨n, t, hn⟩ : Known g lib a := by
    rcases hc.cases_head with rfl | ⟨d, hd, -⟩
    · exact ⟨k, v, hk⟩
    · exact hd.isLoop.known
  exact .of_mem_reads hn (sources_subset_reads hn hc hk (mem_sources_of_wired hk hw hm)) hm

/-- Of the nodes of unknown type those are read that are wired to a node or to what it runs. -/
theorem mem_reads_of_unknown (hn : Present g lib a n t) (hm : isKnown lib m = false) :
    m ∈ reads g lib n ↔
      ∃ c k v, ReflTransGen (Runs g lib) a c ∧ Present g lib c k v ∧ m ∈ sources g k v := by
  constructor
  · intro h
    rcases (mem_reads hn).1 h with hs | ⟨ht, hs⟩
    · exact ⟨a, n, t, .refl, hn, hs⟩
    · obtain ⟨new, -, -, htally⟩ := loopReads_tally hn ht
      rcases htally.sound m hs with ⟨c, hc, k, v, hk, hs⟩ | ⟨u, hu, -⟩
      · exact ⟨c, k, v, (htally.reached c hc ⟨k, v, hk⟩).to_reflTransGen, hk, hs⟩
      · -- A loop that is met again is of a known type.
        rw [hu.isKnown] at hm
        cases hm
  · intro ⟨c, k, v, hc, hk, hs⟩
    exact sources_subset_reads hn hc hk hs

variable (g lib) in
/-- The second loop comes up twice among the steps of loops at or below the first, or once if it is
the first itself. -/
def Revisits (a b : String) : Prop :=
  IsLoop g lib b ∧ ∃ ls : List String, ls.Nodup ∧
    (∀ l ∈ ls, IsLoop g lib l ∧ ReflTransGen (Nests g lib) a l) ∧
    (if b = a then 1 else 2) ≤ (ls.flatMap (stepsOf g)).count b

theorem Revisits.nests (h : Revisits g lib a b) : TransGen (Nests g lib) a b := by
  obtain ⟨hb, ls, -, hls, hcount⟩ := h
  have hmem : b ∈ ls.flatMap (stepsOf g) := by
    rw [← List.count_pos_iff]
    split at hcount <;> omega
  obtain ⟨l, hl, hstep⟩ := List.mem_flatMap.1 hmem
  obtain ⟨⟨m, u, hm, hu⟩, hal⟩ := hls l hl
  rw [stepsOf_of_present hm] at hstep
  exact .tail' hal ⟨⟨m, u, hm, hu, hstep, hb.known⟩, hb⟩

theorem Revisits.of_nests {ls : List String} (hb : IsLoop g lib b) (hnodup : ls.Nodup)
    (hls : ∀ l ∈ ls, ReflTransGen (Nests g lib) a l ∧ Nests g lib l b)
    (hlength : (if b = a then 1 else 2) ≤ ls.length) : Revisits g lib a b := by
  refine ⟨hb, ls, hnodup, fun l hl ↦ ⟨(hls l hl).2.1.isLoop, (hls l hl).1⟩, ?_⟩
  apply Nat.le_trans hlength
  clear hlength hnodup
  induction ls with
  | nil => exact Nat.zero_le _
  | cons l ls ih =>
    have hpos := List.count_pos_iff.2 (hls l List.mem_cons_self).2.mem_stepsOf
    have htail := ih fun k hk ↦ hls k (List.mem_cons_of_mem l hk)
    rw [List.flatMap_cons, List.count_append, List.length_cons]
    omega

theorem count_flatMap_le {f : String → List String} {ls ls' : List String} (hn : ls.Nodup)
    (h : ls ⊆ ls') (b : String) : (ls.flatMap f).count b ≤ (ls'.flatMap f).count b := by
  obtain ⟨ks, hperm, hsub⟩ := List.subperm_of_subset hn h
  rw [← (hperm.flatMap_right f).count_eq b]
  exact (hsub.flatMap f).count_le b

/-- What must come before a node: all that it reads, and the loops that are met again below it. -/
theorem dependsOn_iff : DependsOn g lib a b ↔ Reads g lib a b ∨ Revisits g lib a b := by
  constructor
  · intro ⟨n, t, hn, hb⟩
    obtain ⟨m, hm, hk, rfl⟩ := mem_dependencies.1 hb
    rcases (mem_reads hn).1 hm with hs | ⟨ht, hs⟩
    · exact .inl ⟨a, .refl, wired_of_mem_sources hn hs hk⟩
    · obtain ⟨new, hnodup, hmem, htally⟩ := loopReads_tally hn ht
      rcases htally.sound m hs with ⟨c, hc, k, v, hkv, hs⟩ | ⟨u, hu, hl, hlt⟩
      · exact .inl ⟨c, (htally.reached c hc ⟨k, v, hkv⟩).to_reflTransGen,
          wired_of_mem_sources hkv hs hk⟩
      · have hloop : IsLoop g lib m.id := ⟨m, u, hu, hl⟩
        refine .inr ⟨hloop, a :: new, hnodup, fun l hl ↦ ?_, ?_⟩
        · have hbelow := (hmem l).1 hl
          refine ⟨?_, hbelow⟩
          rcases hbelow.cases_tail with rfl | ⟨k, -, hk⟩
          · exact ⟨n, t, hn, ht⟩
          · exact hk.2
        · split
          · omega
          · rename_i hne
            -- The loop was listed, so it is among those met, and it is not where the search began.
            have hmet := htally.met m.id (List.count_pos_iff.1 (by omega)) hloop
            rw [htally.older] at hmet
            have hpos : 0 < new.count m.id := List.count_pos_iff.2 (by simpa [hne] using hmet)
            omega
  · intro h
    rcases h with h | h
    · exact h.dependsOn
    · obtain ⟨c, hac, -⟩ := TransGen.head'_iff.1 h.nests
      obtain ⟨n, t, hn, ht⟩ := hac.1.isLoop
      obtain ⟨⟨m, u, hm, hu⟩, ls, hnodup, hls, hcount⟩ := h
      obtain ⟨new, hnodup', hmem, htally⟩ := loopReads_tally hn ht
      have hsub : ls ⊆ a :: new := fun l hl ↦ (hmem l).2 (hls l hl).2
      have hle := count_flatMap_le (f := stepsOf g) hnodup hsub b
      obtain ⟨hfirst, hnew⟩ := List.nodup_cons.1 hnodup'
      refine .of_mem_reads hn ((mem_reads hn).2 (.inr ⟨ht, htally.complete b m u hm hu ?_⟩)) hm
      split at hcount
      · rename_i he
        have hzero : new.count b = 0 := List.count_eq_zero.2 (he ▸ hfirst)
        omega
      · have hone := List.nodup_iff_count_le_one.1 hnew b
        omega

theorem DependsOn.known (h : DependsOn g lib a b) : Known g lib b := by
  rcases dependsOn_iff.1 h with h | h
  · obtain ⟨c, -, hw⟩ := h
    exact hw.known
  · exact h.1.known

/-- A loop met twice below another one is the only dependency that is not read. -/
theorem DependsOn.reads_or_nests (h : DependsOn g lib a b) :
    Reads g lib a b ∨ TransGen (Nests g lib) a b :=
  (dependsOn_iff.1 h).imp_right Revisits.nests

/-- A loop below itself depends on itself. -/
theorem dependsOn_self_of_nests (h : TransGen (Nests g lib) a a) : DependsOn g lib a a := by
  obtain ⟨l, hl, hla⟩ := TransGen.tail'_iff.1 h
  apply dependsOn_iff.2
  exact .inr (.of_nests hla.2 (List.nodup_singleton l) (by simpa using ⟨hl, hla⟩) (by simp))

/-- A loop below which loops go round depends on one of these. -/
theorem exists_dependsOn_of_nests {c : String} (h : ReflTransGen (Nests g lib) a c)
    (hc : TransGen (Nests g lib) c c) :
    ∃ d, DependsOn g lib a d ∧ TransGen (Nests g lib) d d := by
  induction h with
  | refl => exact ⟨a, dependsOn_self_of_nests hc, hc⟩
  | @tail b c hab hbc ih =>
    by_cases hb : TransGen (Nests g lib) b b
    · exact ih hb
    · -- The way from `a` enters the circle at `c`, a step of `b` and of a loop on the circle.
      obtain ⟨l, hcl, hlc⟩ := TransGen.tail'_iff.1 hc
      have hne : b ≠ l := by
        intro he
        exact hb (he ▸ TransGen.head' hlc hcl)
      have hal := (hab.tail hbc).trans hcl
      have hnodup : [b, l].Nodup := by simpa using hne
      refine ⟨c, dependsOn_iff.2 (.inr (.of_nests hbc.2 hnodup ?_ ?_)), hc⟩
      · simpa using ⟨⟨hab, hbc⟩, hal, hlc⟩
      · split <;> simp

end NodeShader.Schedule

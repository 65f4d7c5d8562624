import NodeShader.Proofs.Expansion
import NodeShader.Proofs.Order

namespace NodeShader

open Relation

namespace Schedule

variable (g : Graph) (lib : Library)

def isLoopNode (n : Node) : Bool := (lib.find? n.typeName).any fun t ↦ t.role = .loop

def loopCount : Nat := g.nodes.countP (isLoopNode lib)

theorem loopCount_le : loopCount g lib ≤ g.nodes.length + 1 :=
  Nat.le_succ_of_le List.countP_le_length

/-- From a loop on, at most `depth` loops stand inside each other. -/
def NestsWithin (depth : Nat) (id : String) : Prop :=
  ∀ path, (id :: path).IsChain (Nests g lib) → (id :: path).length ≤ depth

variable {g lib} {order path : List String} {id c : String} {depth : Nat}

/-- Below what is scheduled no loop runs itself. -/
theorem Placed.not_nests_self (h : Placed g lib order) (hid : id ∈ order)
    (hc : ReflTransGen (Nests g lib) id c) : ¬ TransGen (Nests g lib) c c := by
  intro hcc
  obtain ⟨d, hd, hdd⟩ := exists_dependsOn_of_nests hc hcc
  exact h.acyclic (h.closed hid (.single hd)) (.single (dependsOn_self_of_nests hdd))

theorem Placed.nodup_of_nests (h : Placed g lib order) (hid : id ∈ order)
    (hp : (id :: path).IsChain (Nests g lib)) : (id :: path).Nodup := by
  have hreach : ∀ c ∈ id :: path, ReflTransGen (Nests g lib) id c := by
    have htrans := hp.imp fun _ _ ↦ ReflTransGen.single
    intro c hc
    rcases List.mem_cons.1 hc with rfl | hc
    · exact .refl
    · exact htrans.rel_cons hc
  have hpair := List.isChain_iff_pairwise.1 (hp.imp fun _ _ ↦ TransGen.single)
  refine hpair.imp_of_mem fun {a b} ha _ hab he ↦ ?_
  exact h.not_nests_self hid (hreach a ha) (he ▸ hab)

theorem isLoop_of_chain (hid : IsLoop g lib id) (hp : (id :: path).IsChain (Nests g lib)) :
    ∀ c ∈ id :: path, IsLoop g lib c := by
  induction path generalizing id with
  | nil => simpa using hid
  | cons d path ih =>
    obtain ⟨hd, hp⟩ := List.isChain_cons_cons.1 hp
    intro c hc
    rcases List.mem_cons.1 hc with rfl | hc
    · exact hid
    · exact ih hd.2 hp c hc

theorem length_le_loopCount {ids : List String} (hn : ids.Nodup)
    (hl : ∀ id ∈ ids, IsLoop g lib id) : ids.length ≤ loopCount g lib := by
  have hsub : ids ⊆ (g.nodes.filter (isLoopNode lib)).map (·.id) := by
    intro id hid
    obtain ⟨n, t, h, ht⟩ := hl id hid
    refine List.mem_map.2 ⟨n, List.mem_filter.2 ⟨Graph.mem_of_find? h.node, ?_⟩, h.id_eq⟩
    simp [isLoopNode, h.type, ht]
  simpa [loopCount, List.countP_eq_length_filter] using (List.subperm_of_subset hn hsub).length_le

theorem Placed.nestsWithin (h : Placed g lib order) (hid : id ∈ order) (hl : IsLoop g lib id) :
    NestsWithin g lib (loopCount g lib) id := fun _ hp ↦
  length_le_loopCount (h.nodup_of_nests hid hp) (isLoop_of_chain hl hp)

theorem NestsWithin.pos (h : NestsWithin g lib depth id) : 0 < depth :=
  h [] (List.isChain_singleton id)

theorem NestsWithin.step (h : NestsWithin g lib (depth + 1) id) (hc : Nests g lib id c) :
    NestsWithin g lib depth c := by
  intro path hp
  have := h (c :: path) (List.isChain_cons_cons.2 ⟨hc, hp⟩)
  simpa using this

theorem NestsWithin.acc (h : NestsWithin g lib depth id) : Acc (fun c l ↦ Nests g lib l c) id := by
  induction depth generalizing id with
  | zero => exact absurd h.pos (lt_irrefl 0)
  | succ depth ih => exact ⟨id, fun c hc ↦ ih (h.step hc)⟩

end Schedule

theorem foldlM_congr {ε α σ : Type} {f f' : σ → α → Except ε σ} {xs : List α}
    (h : ∀ s, ∀ x ∈ xs, f s x = f' s x) (s : σ) : xs.foldlM f s = xs.foldlM f' s := by
  induction xs generalizing s with
  | nil => rfl
  | cons x xs ih =>
    have htail := ih fun s x hx ↦ h s x (List.mem_cons_of_mem _ hx)
    simp only [List.foldlM_cons, h s x List.mem_cons_self, htail]

def Fault.IsMismatch (f : Fault) : Prop :=
  ∃ source output sourceType target input targetType,
    f = .mismatch source output sourceType target input targetType

namespace Bench

open Schedule

variable {b : Bench} {id : String} {n : Node} {t : NodeType} {depth room room' : Nat}

theorem instantiate_congr {unroll unroll' : Emitter}
    (h : t.role = .loop → unroll n t = unroll' n t) :
    instantiate unroll n t = instantiate unroll' n t := by
  unfold instantiate
  split
  · rename_i hl
    rw [h hl]
  · rfl

theorem takeStep_congr {unroll unroll' : Emitter} {c : String}
    (h : ∀ m u, Present b.graph b.library c m u → u.role = .loop → unroll m u = unroll' m u)
    (type : GlslType) (stem : String) (turn : Turn) (k : Nat) :
    b.takeStep unroll type stem turn k c = b.takeStep unroll' type stem turn k c := by
  unfold takeStep
  split
  · rfl
  · rename_i m hm
    split
    · rfl
    · rename_i u hu
      rw [instantiate_congr (h m u ⟨hm, hu⟩)]

/-- Room for all loops inside a loop is as good as any more of it. -/
theorem unroll_congr (hd : NestsWithin b.graph b.library depth id)
    (hn : Present b.graph b.library id n t) (ht : t.role = .loop) (h : depth ≤ room)
    (h' : depth ≤ room') : b.unroll room n t = b.unroll room' n t := by
  induction depth generalizing id n t room room' with
  | zero => exact absurd hd.pos (lt_irrefl 0)
  | succ depth ih =>
    obtain ⟨r, rfl⟩ : ∃ r, room = r + 1 := ⟨room - 1, by omega⟩
    obtain ⟨r', rfl⟩ : ∃ r', room' = r' + 1 := ⟨room' - 1, by omega⟩
    funext stem wires scope
    -- Only a step that is a loop needs room, and below it the depth is one less.
    have hfold : ∀ type turn iterations,
        (plan iterations n.steps).foldlM
          (fun turn s ↦ b.takeStep (b.unroll r) type stem turn s.1 s.2) turn =
        (plan iterations n.steps).foldlM
          (fun turn s ↦ b.takeStep (b.unroll r') type stem turn s.1 s.2) turn := by
      intro type turn iterations
      refine foldlM_congr (fun turn s hs ↦ takeStep_congr (fun m u hm hu ↦ ?_) ..) turn
      have hnest : Nests b.graph b.library id s.2 :=
        ⟨⟨n, t, hn, ht, (mem_plan.1 hs).2, m, u, hm⟩, m, u, hm, hu⟩
      exact ih (hd.step hnest) hm hu (by omega) (by omega)
    simp only [unroll, hfold]

theorem connect_ends (n : Node) (wires : Dict Term) (i : Inlet) :
    Ends (b.connect n wires i) (fun _ ↦ True) Fault.IsMismatch := by
  unfold connect
  split
  · trivial
  · split
    · trivial
    · split
      · trivial
      · exact ⟨_, _, _, _, _, _, rfl⟩

theorem resolve_ends (n : Node) (t : NodeType) :
    Ends (b.resolve n t) (fun _ ↦ True) Fault.IsMismatch :=
  Ends.foldlM (fun _ _ ↦ True) (n.inlets t) trivial fun _ i wires _ _ ↦ connect_ends n wires i

theorem known_of_expands {c d : String} (h : ReflTransGen b.Expands c d)
    (hd : Known b.graph b.library d) : Known b.graph b.library c := by
  rcases h.cases_head with rfl | ⟨e, ⟨m, u, hm, -⟩, -⟩
  · exact hd
  · exact ⟨m, u, hm⟩

/-- What a loop expands to is a step of it or lies below one. -/
theorem exists_step_of_expands {c : String} (hn : Present b.graph b.library id n t)
    (h : TransGen b.Expands id c) : b.missingSteps n = [] ∧ 0 < b.turns n ∧
      ∃ d ∈ n.steps, ReflTransGen b.Expands d c ∧ Known b.graph b.library c := by
  obtain ⟨d, ⟨n', t', hn', -, hm, hturns, hd, hk⟩, hdc⟩ := TransGen.head'_iff.1 h
  obtain ⟨rfl, -⟩ := hn.unique hn'
  refine ⟨hm, hturns, d, hd, hdc, ?_⟩
  rcases hdc.cases_tail with rfl | ⟨e, -, he⟩
  · exact hk
  · exact he.runs.known

section

variable (good : String → Prop) (bad : String → Fault → Prop) {unroll : Emitter} {c : String}

/-- A node whose own wires are good ends as the loop that it is. -/
theorem instantiate_ends (hn : Present b.graph b.library c n t) (hc : good c)
    {stem : String} {wires : Dict Term} {scope : Scope}
    (hu : t.role = .loop → Ends (unroll n t stem wires scope)
      (fun _ ↦ ∀ d, TransGen b.Expands c d → good d)
      fun f ↦ ∃ d, TransGen b.Expands c d ∧ bad d f) :
    Ends (instantiate unroll n t stem wires scope)
      (fun _ ↦ ∀ d, ReflTransGen b.Expands c d → good d)
      fun f ↦ ∃ d, ReflTransGen b.Expands c d ∧ bad d f := by
  unfold instantiate
  split
  · rename_i hl
    refine (hu hl).mono ?_ ?_
    · intro _ hgood d hd
      rcases reflTransGen_iff_eq_or_transGen.1 hd with rfl | hd
      · exact hc
      · exact hgood d hd
    · intro f ⟨d, hd, hf⟩
      exact ⟨d, hd.to_reflTransGen, hf⟩
  · rename_i hl
    intro d hd
    rcases hd.cases_head with rfl | ⟨e, ⟨m, u, hm, hu', -⟩, -⟩
    · exact hc
    · exact absurd ((hn.unique hm).2 ▸ hu') hl

theorem takeStep_ends
    (hr : ∀ m u, Present b.graph b.library c m u →
      Ends (b.resolve m u) (fun _ ↦ good c) (bad c))
    (hu : ∀ m u, Present b.graph b.library c m u → u.role = .loop → ∀ stem wires scope,
      Ends (unroll m u stem wires scope) (fun _ ↦ ∀ d, TransGen b.Expands c d → good d)
        fun f ↦ ∃ d, TransGen b.Expands c d ∧ bad d f)
    (type : GlslType) (stem : String) (turn : Turn) (k : Nat) :
    Ends (b.takeStep unroll type stem turn k c)
      (fun _ ↦ ∀ d, ReflTransGen b.Expands c d → Known b.graph b.library d → good d)
      fun f ↦ Known b.graph b.library c ∧ ∃ d, ReflTransGen b.Expands c d ∧ bad d f := by
  unfold takeStep
  split
  · rename_i hm
    intro d hd hk
    obtain ⟨m, u, h⟩ := known_of_expands hd hk
    simp [h.node] at hm
  · rename_i m hm
    split
    · rename_i hu'
      intro d hd hk
      obtain ⟨m', u, h⟩ := known_of_expands hd hk
      obtain rfl := Option.some.inj (hm.symm.trans h.node)
      simp [h.type] at hu'
    · rename_i u hu'
      have hmu : Present b.graph b.library c m u := ⟨hm, hu'⟩
      have hk : Known b.graph b.library c := ⟨m, u, hmu⟩
      refine ((hr m u hmu).mono (fun _ h ↦ h) fun f hf ↦ ⟨hk, c, .refl, hf⟩).bind fun wires hc ↦ ?_
      refine ((instantiate_ends good bad hmu hc fun hl ↦ hu m u hmu hl _ _ _).mono (fun _ h ↦ h)
        fun f hf ↦ ⟨hk, hf⟩).bind fun _ hd ↦ ?_
      exact fun d hcd _ ↦ hd d hcd

/-- With room for all loops inside it a loop ends as the wires of all that it expands to. -/
theorem unroll_ends (hd : NestsWithin b.graph b.library depth id)
    (hn : Present b.graph b.library id n t) (ht : t.role = .loop) (h : depth ≤ room)
    (hr : ∀ c m u, TransGen b.Expands id c → Present b.graph b.library c m u →
      Ends (b.resolve m u) (fun _ ↦ good c) (bad c))
    (stem : String) (wires : Dict Term) (scope : Scope) :
    Ends (b.unroll room n t stem wires scope) (fun _ ↦ ∀ c, TransGen b.Expands id c → good c)
      fun f ↦ ∃ c, TransGen b.Expands id c ∧ bad c f := by
  induction depth generalizing id n t room stem wires scope with
  | zero => exact absurd hd.pos (lt_irrefl 0)
  | succ depth ih =>
    obtain ⟨r, rfl⟩ : ∃ r, room = r + 1 := ⟨room - 1, by omega⟩
    simp only [unroll]
    split
    · rename_i hm
      intro c hc
      simp [(exists_step_of_expands hn hc).1] at hm
    · rename_i hm
      replace hm : b.missingSteps n = [] := by simpa using hm
      split
      · rename_i hs
        intro c hc
        obtain ⟨-, hturns, d, hd, -⟩ := exists_step_of_expands hn hc
        rcases Bool.or_eq_true_iff.1 hs with hs | hs
        · rw [List.isEmpty_iff.1 hs] at hd
          cases hd
        · rw [beq_iff_eq.1 hs] at hturns
          exact absurd hturns (lt_irrefl 0)
      · rename_i hs
        have hturns : 0 < b.turns n := by
          apply Nat.pos_of_ne_zero
          intro hz
          simp [hz] at hs
        -- After some steps, all that these expand to is good.
        refine (Ends.foldlM (fun done _ ↦ ∀ s ∈ done, ∀ c, ReflTransGen b.Expands s.2 c →
          Known b.graph b.library c → good c) _ (by simp) ?_).bind ?_
        · intro done s turn hs hdone
          have hstep : Known b.graph b.library s.2 → b.Expands id s.2 := fun hk ↦
            ⟨n, t, hn, ht, hm, hturns, (mem_plan.1 hs).2, hk⟩
          refine (takeStep_ends good bad ?_ ?_ ..).mono ?_ ?_
          · intro m u hmu
            exact hr s.2 m u (.single (hstep ⟨m, u, hmu⟩)) hmu
          · intro m u hmu hu stem wires scope
            have hexp := hstep ⟨m, u, hmu⟩
            refine ih (hd.step ⟨hexp.runs, m, u, hmu, hu⟩) hmu hu (by omega) ?_ ..
            intro c m' u' hc hm'
            exact hr c m' u' (.head hexp hc) hm'
          · intro turn' hgood s' hs'
            rcases List.mem_append.1 hs' with hs' | hs'
            · exact hdone s' hs'
            · rw [List.mem_singleton.1 hs']
              exact hgood
          · rintro f ⟨hk, d, hsd, hf⟩
            exact ⟨d, .head' (hstep hk) hsd, hf⟩
        · intro turn hall c hc
          obtain ⟨-, -, d, hd, hdc, hk⟩ := exists_step_of_expands hn hc
          exact hall (0, d) (mem_plan.2 ⟨hturns, hd⟩) c hdc hk

end

end Bench

namespace Draft

open Schedule

variable {g : Graph} {lib : Library} {settings : Settings} {id : String} {depth room room' : Nat}

theorem addNode_congr (hd : IsLoop g lib id → NestsWithin g lib depth id) (h : depth ≤ room)
    (h' : depth ≤ room') (d : Draft) :
    addNode g lib settings room d id = addNode g lib settings room' d id := by
  unfold addNode
  split
  · rfl
  · rename_i n hn
    split
    · rfl
    · rename_i t ht
      have he : (bench g lib settings d).emit room n t = (bench g lib settings d).emit room' n t :=
        Bench.instantiate_congr fun hl ↦
          Bench.unroll_congr (hd ⟨n, t, ⟨hn, ht⟩, hl⟩) ⟨hn, ht⟩ hl h h'
      simp only [he]

/-- A node ends as its own wires and those of all that it expands to. -/
theorem addNode_ends_of_resolve (good : String → Prop) (bad : String → Fault → Prop)
    (hd : IsLoop g lib id → NestsWithin g lib depth id) (h : depth ≤ room) (d : Draft)
    (hr : ∀ c m u, ReflTransGen (bench g lib settings d).Expands id c → Present g lib c m u →
      Ends ((bench g lib settings d).resolve m u) (fun _ ↦ good c) (bad c)) :
    Ends (addNode g lib settings room d id)
      (fun _ ↦ ∀ c, ReflTransGen (bench g lib settings d).Expands id c → Known g lib c → good c)
      fun f ↦ ∃ c, ReflTransGen (bench g lib settings d).Expands id c ∧ bad c f := by
  unfold addNode
  split
  · rename_i hn
    intro c hc hk
    obtain ⟨n, t, h⟩ := Bench.known_of_expands hc hk
    exact absurd (hn.symm.trans h.node) nofun
  · rename_i n hn
    split
    · rename_i ht
      intro c hc hk
      obtain ⟨n', t, h⟩ := Bench.known_of_expands hc hk
      obtain rfl := Option.some.inj (hn.symm.trans h.node)
      exact absurd (ht.symm.trans h.type) nofun
    · rename_i t ht
      have hnt : Present g lib id n t := ⟨hn, ht⟩
      refine ((hr id n t .refl hnt).mono (fun _ h ↦ h) fun f hf ↦ ⟨id, .refl, hf⟩).bind
        fun wires hgood ↦ ?_
      refine (Bench.instantiate_ends good bad hnt hgood fun hl ↦ ?_).bind fun _ hall c hc _ ↦ hall c hc
      refine Bench.unroll_ends good bad (hd ⟨n, t, hnt, hl⟩) hnt hl h ?_ ..
      exact fun c m u hc hm ↦ hr c m u hc.to_reflTransGen hm

theorem addNode_ends (hd : IsLoop g lib id → NestsWithin g lib depth id) (h : depth ≤ room)
    (d : Draft) : Ends (addNode g lib settings room d id) (fun _ ↦ True) Fault.IsMismatch := by
  refine (addNode_ends_of_resolve (fun _ ↦ True) (fun _ ↦ Fault.IsMismatch) hd h d ?_).mono
    (fun _ _ ↦ trivial) fun f ⟨_, _, hf⟩ ↦ hf
  exact fun c m u _ _ ↦ Bench.resolve_ends m u

variable (settings) in
/-- From a scheduled loop the way down through loops never comes back, so no more of them stand
inside each other than the graph has: with as much room the emission of a schedule is what it is
with any more, and it ends with a draft or with a wire that does not fit. -/
theorem ofOrder_terminates {target : String} {s : Schedule}
    (hs : schedule g lib target = .ok s) :
    (∀ id ∈ s.order, IsLoop g lib id → Acc (fun c l ↦ Nests g lib l c) id ∧
      ∀ path, (id :: path).IsChain (Nests g lib) →
        (id :: path).Nodup ∧ (id :: path).length ≤ loopCount g lib) ∧
    (∀ room, loopCount g lib ≤ room →
      ofOrderWithin g lib settings room s.order = ofOrder g lib settings s.order) ∧
    ((∃ d, ofOrder g lib settings s.order = .ok d) ∨
      ∃ f, ofOrder g lib settings s.order = .error f ∧ f.IsMismatch) := by
  have hp := placed_of_schedule hs
  refine ⟨fun id hid hl ↦ ⟨(hp.nestsWithin hid hl).acc, fun path hpath ↦ ?_⟩, ?_, ?_⟩
  · exact ⟨hp.nodup_of_nests hid hpath, hp.nestsWithin hid hl path hpath⟩
  · intro room hroom
    exact foldlM_congr (fun d id hid ↦ addNode_congr (hp.nestsWithin hid) hroom (loopCount_le g lib) d) {}
  · have hends : Ends (ofOrder g lib settings s.order) (fun _ ↦ True) Fault.IsMismatch :=
      Ends.foldlM (fun _ _ ↦ True) s.order trivial fun _ id d hid _ ↦
        addNode_ends (hp.nestsWithin hid) (loopCount_le g lib) d
    cases ho : ofOrder g lib settings s.order with
    | ok d => exact .inl ⟨d, rfl⟩
    | error f =>
      rw [ho] at hends
      exact .inr ⟨f, rfl, hends⟩

theorem ofOrder_terminates_nested :
    ∃ s, schedule Sample.nested Sample.library "out" = .ok s ∧ "outer" ∈ s.order ∧
      loopCount Sample.nested Sample.library = 2 ∧
      Acc (fun c l ↦ Nests Sample.nested Sample.library l c) "outer" ∧
      (∀ path, ("outer" :: path).IsChain (Nests Sample.nested Sample.library) →
        ("outer" :: path).Nodup ∧ ("outer" :: path).length ≤ 2) ∧
      ofOrderWithin Sample.nested Sample.library {} 2 s.order =
        ofOrder Sample.nested Sample.library {} s.order ∧
      ((∃ d, ofOrder Sample.nested Sample.library {} s.order = .ok d) ∨
        ∃ f, ofOrder Sample.nested Sample.library {} s.order = .error f ∧ f.IsMismatch) := by
  have hs : schedule Sample.nested Sample.library "out" = .ok
    { order := ["t", "outer", "out"], diagnostics := [.unknownType "old" "Retired"] } := rfl
  refine ⟨_, hs, by simp, rfl, ?_⟩
  obtain ⟨hloops, hroom, hends⟩ := ofOrder_terminates {} hs
  obtain ⟨hacc, hpaths⟩ := hloops "outer" (by simp)
    ⟨Sample.loop "outer" ["inner", "s"], Catalogue.loop, ⟨rfl, rfl⟩, rfl⟩
  exact ⟨hacc, hpaths, hroom 2 le_rfl, hends⟩

end Draft

end NodeShader

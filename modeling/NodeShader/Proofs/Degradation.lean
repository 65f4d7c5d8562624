import NodeShader.Proofs.Cycle
import NodeShader.Proofs.Verdict

namespace NodeShader

open Relation Schedule

/-- What the first graph has of known types, the second one has too, and no id finds a node in the
first one only. -/
structure Thins (lib : Library) (g' g : Graph) : Prop where
  present : ∀ id n t, Present g' lib id n t → Present g lib id n t
  missing : ∀ id, g.find? id = none → g'.find? id = none

namespace Thins

variable {lib : Library} {g g' : Graph} {a b id : String} {settings : Settings} {target : Target}

theorem known (h : Thins lib g' g) (ha : Known g' lib a) : Known g lib a := by
  obtain ⟨n, t, hn⟩ := ha
  exact ⟨n, t, h.present a n t hn⟩

theorem isLoop (h : Thins lib g' g) (ha : IsLoop g' lib a) : IsLoop g lib a := by
  obtain ⟨n, t, hn, ht⟩ := ha
  exact ⟨n, t, h.present a n t hn, ht⟩

theorem wired (h : Thins lib g' g) (hw : Wired g' lib a b) : Wired g lib a b := by
  obtain ⟨n, t, hn, hi, hb⟩ := hw
  exact ⟨n, t, h.present a n t hn, hi, h.known hb⟩

theorem runs (h : Thins lib g' g) (hr : Runs g' lib a b) : Runs g lib a b := by
  obtain ⟨n, t, hn, ht, hs, hb⟩ := hr
  exact ⟨n, t, h.present a n t hn, ht, hs, h.known hb⟩

theorem nests (h : Thins lib g' g) (hn : Nests g' lib a b) : Nests g lib a b :=
  ⟨h.runs hn.1, h.isLoop hn.2⟩

theorem reads (h : Thins lib g' g) (hr : Reads g' lib a b) : Reads g lib a b := by
  obtain ⟨c, hc, hw⟩ := hr
  exact ⟨c, ReflTransGen.mono (fun _ _ ↦ h.runs) _ _ hc, h.wired hw⟩

theorem stepsOf (h : Thins lib g' g) (ha : IsLoop g' lib a) :
    Schedule.stepsOf g' a = Schedule.stepsOf g a := by
  obtain ⟨n, t, hn, -⟩ := ha
  rw [stepsOf_of_present hn, stepsOf_of_present (h.present a n t hn)]

theorem revisits (h : Thins lib g' g) (hr : Revisits g' lib a b) : Revisits g lib a b := by
  obtain ⟨hb, ls, hnodup, hls, hcount⟩ := hr
  have hsteps : ls.flatMap (Schedule.stepsOf g') = ls.flatMap (Schedule.stepsOf g) :=
    List.flatMap_congr fun l hl ↦ h.stepsOf (hls l hl).1
  rw [hsteps] at hcount
  refine ⟨h.isLoop hb, ls, hnodup, fun l hl ↦ ?_, hcount⟩
  obtain ⟨hloop, hbelow⟩ := hls l hl
  exact ⟨h.isLoop hloop, ReflTransGen.mono (fun _ _ ↦ h.nests) _ _ hbelow⟩

theorem dependsOn (h : Thins lib g' g) (hd : DependsOn g' lib a b) : DependsOn g lib a b := by
  rw [dependsOn_iff] at hd ⊢
  exact hd.imp h.reads h.revisits

theorem expands (h : Thins lib g' g) (he : (Draft.bench g' lib settings {}).Expands a b) :
    (Draft.bench g lib settings {}).Expands a b := by
  obtain ⟨n, t, hn, ht, hmissing, hturns, hb, hk⟩ := he
  refine ⟨n, t, h.present a n t hn, ht, ?_, hturns, hb, h.known hk⟩
  simp only [Bench.missingSteps, Draft.bench, List.filter_eq_nil_iff, Option.isNone_iff_eq_none]
    at hmissing ⊢
  intro id hid hnone
  exact hmissing id hid (h.missing id hnone)

theorem wireType? (h : Thins lib g' g) {w : Wire} {type : GlslType}
    (hw : wireType? g' lib w = some type) : NodeShader.wireType? g lib w = some type := by
  obtain ⟨n, t, hn⟩ := known_of_wireType? hw
  rw [NodeShader.wireType?, exports?_of_present hn] at hw
  rw [NodeShader.wireType?, exports?_of_present (h.present _ n t hn)]
  exact hw

theorem fits (h : Thins lib g' g) (ha : Fits g lib a) : Fits g' lib a := by
  intro n t hn i hi w type hw htype
  exact ha n t (h.present a n t hn) i hi w type hw (h.wireType? htype)

theorem isAcyclic (h : Thins lib g' g) (hnode : target.node? g' lib = target.node? g lib)
    (hk : ∀ id, target.node? g lib = some id → Known g' lib id)
    (hacyclic : target.IsAcyclic g lib) : target.IsAcyclic g' lib := by
  intro id ids hid hcycle
  rw [hnode] at hid
  obtain ⟨a, ha, haa⟩ := (schedule_eq_cycle_iff (hk id hid)).1 ⟨ids, hcycle⟩
  have hmono : DependsOn g' lib ≤ DependsOn g lib := fun _ _ ↦ h.dependsOn
  obtain ⟨ids', hcycle'⟩ := (schedule_eq_cycle_iff (h.known (hk id hid))).2
    ⟨a, ReflTransGen.mono hmono _ _ ha, TransGen.mono hmono _ _ haa⟩
  exact hacyclic id ids' hid hcycle'

/-- Of what is emitted for a target nothing is new. -/
theorem emits (h : Thins lib g' g) (hnode : target.node? g' lib = target.node? g lib)
    (hk : ∀ id, target.node? g lib = some id → Known g' lib id)
    (hacyclic : target.IsAcyclic g lib) (hc : target.Emits g' lib settings a) :
    target.Emits g lib settings a := by
  obtain ⟨id, s', c, hid, hs', hc, hca⟩ := hc
  rw [hnode] at hid
  obtain ⟨n, t, hn⟩ := hk id hid
  have hends' := schedule_ends hn
  rw [hs'] at hends'
  have hreached := hends'.1.reached c hc List.not_mem_nil
  have hends := schedule_ends (h.present id n t hn)
  cases hs : schedule g lib id with
  | error e =>
    rw [hs] at hends
    obtain ⟨ids, rfl, -⟩ := hends
    exact absurd hs (hacyclic id ids hid)
  | ok s =>
    rw [hs] at hends
    obtain ⟨⟨hplaced, -, -, -⟩, hlast⟩ := hends
    refine ⟨id, s, c, hid, hs, ?_, ReflTransGen.mono (fun _ _ ↦ h.expands) _ _ hca⟩
    apply hplaced.closed (List.mem_of_getLast? hlast)
    exact ReflTransGen.mono (fun _ _ ↦ h.dependsOn) _ _ hreached

/-- A shader that can be made can still be made of less, as long as what it shows stays. -/
theorem compile_isOk (h : Thins .builtin g' g) (hids : (g.nodes.map (·.id)).Nodup)
    (hids' : (g'.nodes.map (·.id)).Nodup)
    (hnode : target.node? g' .builtin = target.node? g .builtin)
    (hfind : ∀ id, target.node? g .builtin = some id → g'.find? id = g.find? id)
    (hok : ∃ shader, compile g .builtin settings target = .ok shader) :
    ∃ shader, compile g' .builtin settings target = .ok shader := by
  obtain ⟨hres, hacyclic, hfits⟩ := (compile_isOk_iff hids).1 hok
  obtain ⟨id, hid, n, t, hn⟩ := (Target.resolves_iff hids).1 hres
  have hk : ∀ id, target.node? g .builtin = some id → Known g' .builtin id := by
    intro id' hid'
    obtain rfl := Option.some.inj (hid.symm.trans hid')
    exact ⟨n, t, (hfind id hid).trans hn.node, hn.type⟩
  apply (compile_isOk_iff hids').2
  refine ⟨(Target.resolves_iff hids').2 ⟨id, hnode.trans hid, hk id hid⟩,
    h.isAcyclic hnode hk hacyclic, fun c hc ↦ ?_⟩
  exact h.fits (hfits c (h.emits hnode hk hacyclic hc))

end Thins

def Node.withType (n : Node) (name : String) : Node := { n with typeName := name }

section

variable {α : Type} {p q : α → Bool} {x : α} {xs : List α}

theorem find?_filter_of_find? (h : xs.find? p = some x) (hx : q x = true) :
    (xs.filter q).find? p = some x := by
  obtain ⟨hp, before, after, rfl, hbefore⟩ := List.find?_eq_some_iff_append.1 h
  apply List.find?_eq_some_iff_append.2
  refine ⟨hp, before.filter q, after.filter q, ?_, fun y hy ↦ ?_⟩
  · rw [List.filter_append, List.filter_cons_of_pos hx]
  · exact hbefore y (List.mem_of_mem_filter hy)

theorem find?_modifyFirst_of_find? {f : α → α} (h : xs.find? p = some x) (hx : q x = false)
    (hf : ∀ y, p (f y) = false) : (modifyFirst q f xs).find? p = some x := by
  induction xs with
  | nil => cases h
  | cons y ys ih =>
    cases hp : p y with
    | true =>
      obtain rfl : y = x := by simpa [hp] using h
      simp [modifyFirst, hx, hp]
    | false =>
      rw [List.find?_cons, hp] at h
      cases hq : q y with
      | true => simpa [modifyFirst, hq, hf] using h
      | false => simpa [modifyFirst, hq, hp] using ih h

end

namespace Graph

variable {g : Graph} {lib : Library} {id k : String} {f : Node → Node} {n : Node}

theorem find?_remove : (g.remove id).find? k = if k = id then none else g.find? k := by
  rw [find?, find?, remove, List.find?_filter]
  split
  · rename_i hk
    simp [hk]
  · rename_i hk
    congr 1
    funext m
    by_cases hm : m.id = k <;> simp [hm, hk]

theorem find?_modify (hf : ∀ m, (f m).id = m.id) :
    (g.modify id f).find? k = if k = id then (g.find? k).map f else g.find? k := by
  simp only [find?, modify]
  induction g.nodes with
  | nil => simp [modifyFirst]
  | cons m ms ih =>
    by_cases hm : m.id = id
    · subst hm
      by_cases hk : k = m.id
      · simp [modifyFirst, hf, hk]
      · simp [modifyFirst, hf, hk, Ne.symm hk]
    · by_cases hk : m.id = k
      · subst hk
        simp [modifyFirst, hm]
      · simpa [modifyFirst, hm, hk] using ih

theorem map_id_modify (hf : ∀ m, (f m).id = m.id) :
    (g.modify id f).nodes.map (·.id) = g.nodes.map (·.id) := by
  simp only [modify]
  induction g.nodes with
  | nil => rfl
  | cons m ms ih => by_cases hm : m.id = id <;> simp [modifyFirst, hf, hm, ih]

theorem thins_remove : Thins lib (g.remove id) g where
  present k n t hn := by
    obtain ⟨hnode, ht⟩ := hn
    rw [find?_remove] at hnode
    split at hnode
    · cases hnode
    · exact ⟨hnode, ht⟩
  missing k hk := by
    rw [find?_remove, hk, ite_self]

theorem find?_withType {name : String} :
    (g.modify id (·.withType name)).find? k =
      if k = id then (g.find? k).map (·.withType name) else g.find? k :=
  find?_modify fun _ ↦ rfl

theorem thins_withType {name : String} (hname : lib.find? name = none) :
    Thins lib (g.modify id (·.withType name)) g where
  present k n t hn := by
    obtain ⟨hnode, ht⟩ := hn
    rw [find?_withType] at hnode
    split at hnode
    · obtain ⟨m, -, rfl⟩ := Option.map_eq_some_iff.1 hnode
      exact absurd (hname.symm.trans ht) nofun
    · exact ⟨hnode, ht⟩
  missing k hk := by
    rw [find?_withType, hk, Option.map_none, ite_self]

theorem node?_remove {target : Target} (h : target.node? g lib = some k) (hk : k ≠ id) :
    target.node? (g.remove id) lib = some k := by
  cases target with
  | preview node => exact h
  | output =>
    obtain ⟨n, hn, rfl⟩ := Option.map_eq_some_iff.1 h
    apply Option.map_eq_some_iff.2
    exact ⟨n, find?_filter_of_find? hn (by simpa using hk), rfl⟩

theorem node?_withType {target : Target} {name : String} (hname : lib.find? name = none)
    (h : target.node? g lib = some k) (hk : k ≠ id) :
    target.node? (g.modify id (·.withType name)) lib = some k := by
  cases target with
  | preview node => exact h
  | output =>
    obtain ⟨n, hn, rfl⟩ := Option.map_eq_some_iff.1 h
    apply Option.map_eq_some_iff.2
    refine ⟨n, find?_modifyFirst_of_find? hn (by simpa using hk) fun m ↦ ?_, rfl⟩
    simp [Node.withType, hname]

end Graph

/-- A shader that is made of the built-in types can still be made if a node that is not itself shown
is taken away or its type is one that there is not. -/
theorem compile_without {g : Graph} {settings : Settings} {target : Target} {id : String}
    (hids : (g.nodes.map (·.id)).Nodup)
    (hok : ∃ shader, compile g .builtin settings target = .ok shader)
    (hid : target.node? g .builtin ≠ some id) :
    (∃ shader, compile (g.remove id) .builtin settings target = .ok shader) ∧
      ∀ name, Library.builtin.find? name = none →
        ∃ shader, compile (g.modify id (·.withType name)) .builtin settings target = .ok shader := by
  obtain ⟨k, hk, -⟩ := (Target.resolves_iff hids).1 ((compile_isOk_iff hids).1 hok).1
  have hne : k ≠ id := by
    intro he
    exact hid (he ▸ hk)
  constructor
  · refine Graph.thins_remove.compile_isOk hids ?_ ?_ ?_ hok
    · exact hids.sublist (List.filter_sublist.map _)
    · rw [Graph.node?_remove hk hne, hk]
    · intro k' hk'
      obtain rfl := Option.some.inj (hk.symm.trans hk')
      rw [Graph.find?_remove, if_neg hne]
  · intro name hname
    refine (Graph.thins_withType hname).compile_isOk hids ?_ ?_ ?_ hok
    · rw [Graph.map_id_modify (f := (·.withType name)) fun _ ↦ rfl]
      exact hids
    · rw [Graph.node?_withType hname hk hne, hk]
    · intro k' hk'
      obtain rfl := Option.some.inj (hk.symm.trans hk')
      rw [Graph.find?_withType, if_neg hne]

def Sample.stacked : Graph where
  nodes := [
    { id := "screen", typeName := "Output",
      inputs := [{ key := "color", type := .vec3, wire := some ⟨"outer", "result"⟩ }] },
    Sample.loop "outer" ["inner", "s"], Sample.loop "inner" ["s"], Sample.sum "s" "x" "x",
    Sample.sum "x" "gone" "gone"]

theorem compile_without_inner :
    (∃ shader, compile Sample.stacked .builtin {} .output = .ok shader) ∧
      Target.output.node? Sample.stacked .builtin = some "screen" ∧
      (∃ shader, compile (Sample.stacked.remove "inner") .builtin {} .output = .ok shader) ∧
      ∃ shader, compile (Sample.stacked.modify "inner" (·.withType "Retired")) .builtin {} .output =
        .ok shader := by
  have hok : ∃ shader, compile Sample.stacked .builtin {} .output = .ok shader := ⟨_, rfl⟩
  have hnode : Target.output.node? Sample.stacked .builtin = some "screen" := rfl
  have hinner : Target.output.node? Sample.stacked .builtin ≠ some "inner" := by decide
  obtain ⟨hremove, hretire⟩ := compile_without (by decide) hok hinner
  exact ⟨hok, hnode, hremove, hretire "Retired" rfl⟩

end NodeShader

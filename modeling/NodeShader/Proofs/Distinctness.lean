import NodeShader.Proofs.Instances
import NodeShader.Proofs.Naming
import NodeShader.Proofs.Record

namespace NodeShader

open Schedule Glsl

/-- The output whose variable is reserved for the variable of a key. Those that are no outputs rely on
an output of the same node. -/
def guardKey (key : String) : String :=
  if key = "delta" then "radius" else if key = "cells" then "distance" else key

/-- Where the second variable is declared, the first was reserved. -/
def Guards (y x : String) : Prop :=
  ∃ stem key, IsPlainKey key ∧ x = variableName stem key ∧ y = variableName stem (guardKey key)

theorem Guards.unique {x y z : String} (hy : Guards y x) (hz : Guards z x) : y = z := by
  obtain ⟨stem, key, hkey, hx, rfl⟩ := hy
  obtain ⟨stem', key', hkey', hx', rfl⟩ := hz
  obtain ⟨hstem, rfl⟩ := variableName_inj hkey hkey' (hx.symm.trans hx')
  exact variableName_congr hstem (guardKey key)

/-- How declarations, given with the nodes that they belong to, change the variables in use: each
brings a guard, and apart from exceptions a new one. -/
structure Grows (exempt : String × String → Prop) (before after : List String)
    (trace : List (String × String)) : Prop where
  subset : before ⊆ after
  guarded : ∀ x ∈ trace, ∃ y ∈ after, Guards y x.2
  fresh : ∀ x ∈ trace, exempt x ∨ ∃ y, y ∉ before ∧ Guards y x.2
  distinct : trace.Pairwise fun x y ↦ x.2 = y.2 → exempt y

namespace Grows

variable {exempt : String × String → Prop} {before middle after after' : List String}
  {trace later : List (String × String)} {x y : String × String} {guard : String}

theorem none (exempt : String × String → Prop) (used : List String) : Grows exempt used used [] :=
  ⟨List.Subset.refl used, nofun, nofun, .nil⟩

theorem extend (h : Grows exempt before after trace) (hsub : after ⊆ after') :
    Grows exempt before after' trace where
  subset _ hx := hsub (h.subset hx)
  guarded x hx := by
    obtain ⟨y, hy, hg⟩ := h.guarded x hx
    exact ⟨y, hsub hy, hg⟩
  fresh := h.fresh
  distinct := h.distinct

theorem widen (h : Grows exempt middle after trace) (hsub : before ⊆ middle) :
    Grows exempt before after trace where
  subset _ hx := h.subset (hsub hx)
  guarded := h.guarded
  fresh x hx := by
    refine (h.fresh x hx).imp_right ?_
    intro ⟨y, hy, hg⟩
    exact ⟨y, fun hbefore ↦ hy (hsub hbefore), hg⟩
  distinct := h.distinct

/-- A guard in use is not a new one. -/
theorem exempt_of_guarded (h : Grows exempt before after trace) (hx : x ∈ trace)
    (hguard : guard ∈ before) (hg : Guards guard x.2) : exempt x := by
  rcases h.fresh x hx with hexempt | ⟨z, hz, hgz⟩
  · exact hexempt
  · exact absurd (hg.unique hgz ▸ hguard) hz

theorem trans (h : Grows exempt before middle trace) (h' : Grows exempt middle after later) :
    Grows exempt before after (trace ++ later) where
  subset _ hx := h'.subset (h.subset hx)
  guarded x hx := by
    rcases List.mem_append.1 hx with hx | hx
    · exact (h.extend h'.subset).guarded x hx
    · exact h'.guarded x hx
  fresh x hx := by
    rcases List.mem_append.1 hx with hx | hx
    · exact h.fresh x hx
    · exact (h'.widen h.subset).fresh x hx
  distinct := by
    refine List.pairwise_append.2 ⟨h.distinct, h'.distinct, ?_⟩
    intro x hx y hy hxy
    obtain ⟨z, hz, hg⟩ := h.guarded x hx
    exact h'.exempt_of_guarded hy hz (hxy ▸ hg)

/-- A declaration whose guard is reserved first can come last. -/
theorem snoc (h : Grows exempt middle after trace) (hsub : before ⊆ middle) (hg : Guards guard x.2)
    (hbefore : guard ∉ before) (hmiddle : guard ∈ middle) (hx : ∀ y, y.2 = x.2 → ¬ exempt y) :
    Grows exempt before after (trace ++ [x]) where
  subset := (h.widen hsub).subset
  guarded z hz := by
    rcases List.mem_append.1 hz with hz | hz
    · exact h.guarded z hz
    · obtain rfl := List.mem_singleton.1 hz
      exact ⟨guard, h.subset hmiddle, hg⟩
  fresh z hz := by
    rcases List.mem_append.1 hz with hz | hz
    · exact (h.widen hsub).fresh z hz
    · obtain rfl := List.mem_singleton.1 hz
      exact .inr ⟨guard, hbefore, hg⟩
  distinct := by
    refine List.pairwise_append.2 ⟨h.distinct, List.pairwise_singleton _ _, ?_⟩
    intro y hy z hz hyz
    obtain rfl := List.mem_singleton.1 hz
    exact absurd (h.exempt_of_guarded hy hmiddle (hyz ▸ hg)) (hx y hyz)

end Grows

def Accounts (exempt : String × String → Prop) (before after owners names : List String) : Prop :=
  ∃ trace : List (String × String), trace.map (·.1) = owners ∧ trace.map (·.2) = names ∧
    Grows exempt before after trace

namespace Accounts

variable {exempt : String × String → Prop}
  {before middle after owners owners' names names' : List String}

theorem none (exempt : String × String → Prop) (used : List String) :
    Accounts exempt used used [] [] :=
  ⟨[], rfl, rfl, .none exempt used⟩

theorem length_eq (h : Accounts exempt before after owners names) :
    owners.length = names.length := by
  obtain ⟨trace, rfl, rfl, -⟩ := h
  rw [List.length_map, List.length_map]

theorem pairwise (h : Accounts exempt before after owners names) :
    (owners.zip names).Pairwise fun x y ↦ x.2 = y.2 → exempt y := by
  obtain ⟨trace, rfl, rfl, hgrows⟩ := h
  have hzip : (trace.map (·.1)).zip (trace.map (·.2)) = trace := by simp [List.zip_map']
  rw [hzip]
  exact hgrows.distinct

theorem nodup (h : Accounts exempt before after owners names)
    (hnone : ∀ x, x.1 ∈ owners → ¬ exempt x) : names.Nodup := by
  obtain ⟨trace, rfl, rfl, hgrows⟩ := h
  rw [List.Nodup, List.pairwise_map]
  refine hgrows.distinct.imp_of_mem ?_
  intro x y _ hy hexempt heq
  exact hnone y (List.mem_map_of_mem hy) (hexempt heq)

theorem trans (h : Accounts exempt before middle owners names)
    (h' : Accounts exempt middle after owners' names') :
    Accounts exempt before after (owners ++ owners') (names ++ names') := by
  obtain ⟨trace, rfl, rfl, hgrows⟩ := h
  obtain ⟨later, rfl, rfl, hlater⟩ := h'
  exact ⟨trace ++ later, List.map_append, List.map_append, hgrows.trans hlater⟩

end Accounts

namespace Scope

variable {before keys : List String} {scope : Scope} {stem : String}

structure Reserves (before : List String) (scope : Scope) (stem : String) (keys : List String) :
    Prop where
  subset : before ⊆ scope.declared
  fresh : ∀ k ∈ keys, variableName stem k ∉ before
  taken : ∀ k ∈ keys, variableName stem k ∈ scope.declared

theorem reserves_of_reserve {s : Scope} {base : String} (h : s.reserve base keys = (stem, scope)) :
    Reserves s.declared scope stem keys := by
  have hfree := isFree_iff.1 (s.isFree_reserve base keys)
  cases h
  exact ⟨List.subset_append_right _ _, hfree.2,
    fun k hk ↦ List.mem_append_left _ (List.mem_map_of_mem hk)⟩

theorem symbol_declared (s : Scope) (id : String) : (s.symbol id).2.declared = s.declared := by
  unfold symbol
  split
  · rfl
  · rfl

theorem subset_record (s : Scope) (e : Emission) : s.declared ⊆ (s.record e).declared :=
  List.subset_append_right _ _

theorem mem_record {s : Scope} {e : Emission} {x : String} (h : x ∈ e.statements.map (·.name)) :
    x ∈ (s.record e).declared :=
  List.mem_append_left _ (List.mem_append_right _ h)

end Scope

namespace Catalogue

def Covers (t : NodeType) (key : String) : Prop :=
  IsPlainKey key ∧
    (guardKey key ∈ t.outputs.map (·.key) ∨ key = "color" ∧ ∃ alpha, t.role = .output alpha)

instance (t : NodeType) (key : String) : Decidable (Covers t key) :=
  inferInstanceAs (Decidable (_ ∧ _))

structure HasKeys (t : NodeType) (keys : List String) : Prop where
  recipe : ∀ site, ∃ r, (t.emit site).Follows site r ∧ r.map (·.key) = keys
  nodup : keys.Nodup
  covers : ∀ k ∈ keys, Covers t k
  result : t.role = .loop → keys = [resultKey]

theorem HasKeys.names {t : NodeType} {keys : List String} (h : HasKeys t keys) (site : Site) :
    (t.emission site).statements.map (·.name) = keys.map site.variableName := by
  obtain ⟨r, hfollows, rfl⟩ := h.recipe site
  have hstatements : (t.emission site).statements = _ := hfollows.statements
  rw [hstatements, List.map_map, List.map_map]
  rfl

theorem hasKeys_of_emit {t : NodeType} {r : Site → Recipe} (keys : List String)
    (h : ∀ site, t.emit site = Recipe.emit (r site) site)
    (hr : ∀ site, (r site).map (·.key) = keys)
    (hkeys : keys.Nodup ∧ (∀ k ∈ keys, Covers t k) ∧ t.role ≠ .loop) : HasKeys t keys where
  recipe site := ⟨r site, h site ▸ Recipe.emit_follows _ site, hr site⟩
  nodup := hkeys.1
  covers := hkeys.2.1
  result hloop := absurd hloop hkeys.2.2

theorem hasKeys_of_declare {t : NodeType} (key : String)
    (h : ∀ site, ∃ type value, (t.emit site).Follows site [⟨key, type, value, true⟩])
    (hkey : Covers t key ∧ (t.role = .loop → key = resultKey)) : HasKeys t [key] where
  recipe site := by
    obtain ⟨type, value, hfollows⟩ := h site
    exact ⟨_, hfollows, rfl⟩
  nodup := List.nodup_singleton key
  covers := by simpa using hkey.1
  result hloop := by rw [hkey.2 hloop]

theorem hasKeys_formula : HasKeys formula ["out"] := by
  refine hasKeys_of_declare "out" (fun site ↦ ?_) (by decide)
  rw [emit_formula, formulaEmission]
  split
  · exact ⟨_, _, Emission.declare_follows rfl rfl ..⟩
  · split
    · exact ⟨_, _, Emission.declare_follows rfl rfl ..⟩
    · exact ⟨_, _, Emission.declare_follows rfl rfl ..⟩

theorem hasKeys_customFunction : HasKeys customFunction ["out"] :=
  hasKeys_of_declare "out" (fun _ ↦ ⟨_, _, Emission.declare_follows rfl rfl ..⟩) (by decide)

theorem hasKeys_loop : HasKeys loop [resultKey] :=
  hasKeys_of_declare resultKey (fun _ ↦ ⟨_, _, Emission.declare_follows rfl rfl ..⟩) (by decide)

theorem hasKeys_sin : HasKeys sin ["out"] :=
  hasKeys_of_emit ["out"] (fun _ ↦ rfl) (fun _ ↦ rfl) (by decide)

theorem hasKeys_cos : HasKeys cos ["out"] :=
  hasKeys_of_emit ["out"] (fun _ ↦ rfl) (fun _ ↦ rfl) (by decide)

theorem hasKeys_fbm : HasKeys fbm ["value"] :=
  hasKeys_of_emit ["value"] (fun _ ↦ rfl) (fun _ ↦ rfl) (by decide)

theorem hasKeys_of_mem : ∀ t ∈ all, ∃ keys, HasKeys t keys := by
  have hkeys : ∀ t ∈ all, ∀ r ∈ t.recipe?, (r.map (·.key)).Nodup ∧ (∀ k ∈ r.map (·.key), Covers t k) ∧
      t.role ≠ .loop := by decide +kernel
  refine forall_mem_all (fun t ht r hr ↦ ⟨r.map (·.key), ?_⟩) ⟨_, hasKeys_sin⟩ ⟨_, hasKeys_cos⟩
    ⟨_, hasKeys_fbm⟩ ⟨_, hasKeys_customFunction⟩ ⟨_, hasKeys_formula⟩ ⟨_, hasKeys_loop⟩
  exact hasKeys_of_emit _ (congrFun (emit_of_recipe? hr)) (fun _ ↦ rfl) (hkeys t ht r hr)

end Catalogue

open Catalogue (HasKeys)

namespace Bench

variable {b : Bench} {room k : Nat} {n : Node} {t : NodeType} {id c stem : String}
  {wires : Dict Term} {scope scope' : Scope} {e : Emission} {unroll : Emitter} {type : GlslType}
  {turn turn' : Turn} {before owners keys : List String}

/-- The node of an instance once for each declaration that its type writes. -/
def ownDeclarers (p : Node × NodeType) : List String :=
  (p.2.emission (p.1.site p.2 "" .empty)).statements.map fun _ ↦ p.1.id

section Declarers

variable (b)

def declarers (room : Nat) (id : String) : List String :=
  (b.instances room id).flatMap ownDeclarers

/-- The node declares a colour and has no output for it. -/
def Overlooks (c : String) : Prop :=
  ∃ n t, Present b.graph b.library c n t ∧ (∃ alpha, t.role = .output alpha) ∧
    "color" ∉ outputKeys n t

def Unreserved (x : String × String) : Prop :=
  b.Overlooks x.1 ∧ ∃ stem, x.2 = variableName stem "color"

def IsKeyed : Prop := ∀ name t, b.library.find? name = some t → ∃ keys, HasKeys t keys

end Declarers

theorem declarers_of_unknown (h : ¬ Known b.graph b.library c) (room : Nat) :
    b.declarers room c = [] := by
  rw [declarers, instances_of_unknown h, List.flatMap_nil]

theorem ownDeclarers_eq (hn : Present b.graph b.library id n t) (ht : HasKeys t keys) :
    ownDeclarers (n, t) = keys.map fun _ ↦ id := by
  have hlength := congrArg List.length (ht.names (n.site t "" .empty))
  simp only [List.length_map] at hlength
  simp [ownDeclarers, hn.id_eq, hlength]

theorem declarers_of_stepPlan (hn : Present b.graph b.library id n t) (h : b.stepPlan id = [])
    (room : Nat) : b.declarers room id = ownDeclarers (n, t) := by
  rw [declarers, instances_of_stepPlan hn h, List.flatMap_singleton]

theorem declarers_of_run (hn : Present b.graph b.library id n t) (ht : t.role = .loop)
    (hm : b.missingSteps n = []) (room : Nat) : b.declarers (room + 1) id =
      ((plan (b.turns n) n.steps).flatMap fun s ↦ b.declarers room s.2) ++ ownDeclarers (n, t) := by
  rw [declarers, instances_of_run hn ht hm, List.flatMap_append, List.flatMap_assoc,
    List.flatMap_singleton]
  rfl

/-- The variables for the keys of a type are accounted for if those of its outputs are reserved. -/
theorem accounts_of_names (hn : Present b.graph b.library id n t) (ht : HasKeys t keys)
    (hs : Scope.Reserves before scope stem (outputKeys n t))
    (he : e.statements.map (·.name) = keys.map (variableName stem)) :
    Accounts b.Unreserved before (scope.record e).declared (ownDeclarers (n, t))
      (e.statements.map (·.name)) := by
  have hguards : ∀ key ∈ keys, Guards (variableName stem (guardKey key)) (variableName stem key) :=
    fun key hkey ↦ ⟨stem, key, (ht.covers key hkey).1, rfl, rfl⟩
  have hcases : ∀ key ∈ keys, guardKey key ∈ outputKeys n t ∨
      guardKey key = key ∧ b.Unreserved (id, variableName stem key) := by
    intro key hkey
    rcases (ht.covers key hkey).2 with hout | ⟨rfl, hrole⟩
    · exact .inl (mem_mergeNew.2 (.inr hout))
    · by_cases hcolour : "color" ∈ outputKeys n t
      · exact .inl hcolour
      · exact .inr ⟨rfl, ⟨n, t, hn, hrole, hcolour⟩, stem, rfl⟩
  refine ⟨keys.map fun key ↦ (id, variableName stem key), ?_, ?_, ?_, ?_, ?_, ?_⟩
  · rw [ownDeclarers_eq hn ht, List.map_map]
    rfl
  · rw [he, List.map_map]
    rfl
  · intro x hx
    exact scope.subset_record e (hs.subset hx)
  · intro x hx
    obtain ⟨key, hkey, rfl⟩ := List.mem_map.1 hx
    refine ⟨_, ?_, hguards key hkey⟩
    rcases hcases key hkey with hout | ⟨hself, -⟩
    · exact scope.subset_record e (hs.taken _ hout)
    · rw [hself]
      exact Scope.mem_record (he ▸ List.mem_map_of_mem hkey)
  · intro x hx
    obtain ⟨key, hkey, rfl⟩ := List.mem_map.1 hx
    rcases hcases key hkey with hout | ⟨-, hexempt⟩
    · exact .inr ⟨_, hs.fresh _ hout, hguards key hkey⟩
    · exact .inl hexempt
  · rw [List.pairwise_map]
    refine ht.nodup.imp_of_mem ?_
    intro key key' hkey hkey' hne heq
    exact absurd (variableName_inj (ht.covers key hkey).1 (ht.covers key' hkey').1 heq).2 hne

variable (b) in
def Separates (room : Nat) (unroll : Emitter) : Prop :=
  ∀ id n t stem wires scope e scope' before, Present b.graph b.library id n t → t.role = .loop →
    Scope.Reserves before scope stem (outputKeys n t) →
    unroll n t stem wires scope = .ok (e, scope') →
    Accounts b.Unreserved before (scope'.record e).declared (b.declarers room id)
      (e.statements.map (·.name))

theorem instantiate_accounts (hb : b.IsKeyed) (hu : b.Separates room unroll)
    (hn : Present b.graph b.library id n t)
    (hs : Scope.Reserves before scope stem (outputKeys n t))
    (h : instantiate unroll n t stem wires scope = .ok (e, scope')) :
    Accounts b.Unreserved before (scope'.record e).declared (b.declarers room id)
      (e.statements.map (·.name)) := by
  unfold instantiate at h
  split at h
  · rename_i hloop
    exact hu id n t stem wires scope e scope' before hn hloop hs h
  · rename_i hloop
    obtain ⟨keys, ht⟩ := hb _ t hn.type
    have hsymbol : Scope.Reserves before (scope.symbol n.id).2 stem (outputKeys n t) := by
      refine ⟨?_, hs.fresh, ?_⟩
      · rw [scope.symbol_declared]
        exact hs.subset
      · rw [scope.symbol_declared]
        exact hs.taken
    cases h
    rw [declarers_of_stepPlan hn (stepPlan_of_not_loop hn hloop)]
    exact accounts_of_names hn ht hsymbol (ht.names _)

/-- A step declares variables of its own. -/
theorem takeStep_accounts (hb : b.IsKeyed) (hu : b.Separates room unroll)
    (hturn : Accounts b.Unreserved before turn.scope.declared owners
      (turn.emission.statements.map (·.name)))
    (h : b.takeStep unroll type stem turn k c = .ok turn') :
    Accounts b.Unreserved before turn'.scope.declared (owners ++ b.declarers room c)
      (turn'.emission.statements.map (·.name)) := by
  rcases takeStep_eq_ok h with ⟨hnode, rfl⟩ | ⟨m, hm, htype, rfl⟩ |
    ⟨m, u, wires, stepStem, stepScope, e, scope, hm, -, hstem, he, rfl⟩
  · have hunknown : ¬ Known b.graph b.library c := fun ⟨n, t, hn⟩ ↦ by simp [hn.node] at hnode
    rw [declarers_of_unknown hunknown, List.append_nil]
    exact hturn
  · rw [declarers_of_unknown (not_known_of_find? hm htype), List.append_nil]
    exact hturn
  · have hstep := instantiate_accounts hb hu hm (Scope.reserves_of_reserve hstem) he
    have hboth := hturn.trans hstep
    rw [← List.map_append] at hboth
    exact hboth

/-- The result of a loop was reserved before its steps, and is declared after them. -/
theorem declare_accounts {value : String} (hresult : resultKey ∈ outputKeys n t)
    (hs : Scope.Reserves before scope stem (outputKeys n t))
    (he : Accounts b.Unreserved scope.declared scope'.declared owners
      (e.statements.map (·.name))) :
    Accounts b.Unreserved before
      (scope'.record (e.declare (n.site t stem wires) resultKey type value)).declared
      (owners ++ [id])
      ((e.declare (n.site t stem wires) resultKey type value).statements.map (·.name)) := by
  obtain ⟨trace, rfl, hnames, hgrows⟩ := he
  have hplain : IsPlainKey resultKey := by decide
  have hguards : Guards (variableName stem resultKey) (variableName stem resultKey) :=
    ⟨stem, resultKey, hplain, rfl, rfl⟩
  have hapart : ∀ x : String × String, x.2 = variableName stem resultKey → ¬ b.Unreserved x := by
    rintro x hx ⟨-, stem', hcolour⟩
    have hkey : IsPlainKey "color" := by decide
    exact absurd (variableName_inj hplain hkey (hx.symm.trans hcolour)).2 (by decide)
  have hsnoc := hgrows.snoc (x := (id, variableName stem resultKey)) hs.subset hguards (hs.fresh _ hresult)
    (hs.taken _ hresult) hapart
  have hdeclared : (e.declare (n.site t stem wires) resultKey type value).statements.map (·.name) =
      e.statements.map (·.name) ++ [variableName stem resultKey] := List.map_append
  rw [hdeclared, ← hnames]
  exact ⟨_, List.map_append, List.map_append, hsnoc.extend (scope'.subset_record _)⟩

theorem unroll_separates (hb : b.IsKeyed) (room : Nat) : b.Separates room (b.unroll room) := by
  induction room with
  | zero =>
    intro id n t stem wires scope e scope' before _ _ _ h
    cases h
  | succ room ih =>
    intro id n t stem wires scope e scope' before hn hloop hs h
    obtain ⟨keys, ht⟩ := hb _ t hn.type
    obtain rfl := ht.result hloop
    have hresult : resultKey ∈ outputKeys n t := by
      rcases (ht.covers resultKey List.mem_cons_self).2 with hout | ⟨hcolour, -⟩
      · exact mem_mergeNew.2 (.inr hout)
      · exact absurd hcolour (by decide)
    have hown : ownDeclarers (n, t) = [id] := ownDeclarers_eq hn ht
    rcases unroll_eq_ok h with ⟨hmissing, rfl, rfl⟩ | ⟨hmissing, hnone, rfl, rfl⟩ |
      ⟨hmissing, -, -, room', turn, hroom, hrun, rfl, rfl⟩
    · rw [declarers_of_stepPlan hn (stepPlan_of_gap hn hmissing), hown, ← List.nil_append [id]]
      exact declare_accounts hresult hs (.none _ _)
    · rw [declarers_of_stepPlan hn (stepPlan_of_idle hn hnone)]
      exact accounts_of_names hn ht hs (ht.names _)
    · cases hroom
      rw [declarers_of_run hn hloop hmissing, hown]
      refine declare_accounts hresult hs ?_
      refine foldlM_eq_ok_progress (fun done turn ↦ Accounts b.Unreserved scope.declared
        turn.scope.declared (done.flatMap fun s ↦ b.declarers room s.2)
        (turn.emission.statements.map (·.name))) hrun (.none _ _) ?_
      intro done turn turn' s _ hstep hturn
      have hnext := takeStep_accounts hb ih hturn hstep
      simpa only [List.flatMap_append, List.flatMap_singleton] using hnext

end Bench

namespace Draft

def names (d : Draft) : List String := d.blocks.flatten.map (·.name)

def owners (g : Graph) (lib : Library) (settings : Settings) (order : List String) : List String :=
  (instances g lib settings order).flatMap Bench.ownDeclarers

variable {g : Graph} {lib : Library} {settings : Settings} {order : List String} {d : Draft}

theorem flatten_blocks_append (d : Draft) (id : String) (e : Emission) (scope : Scope) :
    (d.append id e scope).blocks.flatten = d.blocks.flatten ++ e.statements := by
  simp only [append]
  split
  · rename_i hnone
    rw [List.isEmpty_iff.1 hnone, List.append_nil]
  · simp

theorem names_append (d : Draft) (id : String) (e : Emission) (scope : Scope) :
    (d.append id e scope).names = d.names ++ e.statements.map (·.name) := by
  rw [names, flatten_blocks_append, List.map_append]
  rfl

theorem owners_snoc (d : Draft) (order : List String) (id : String) :
    owners g lib settings (order ++ [id]) = owners g lib settings order ++
      (bench g lib settings d).declarers (g.nodes.length + 1) id := by
  rw [owners, instances_snoc lib d, List.flatMap_append]
  rfl

/-- The declarations of a draft, with the nodes that they belong to. -/
theorem accounts_of_ofOrder (hlib : ∀ name t, lib.find? name = some t → ∃ keys, HasKeys t keys)
    (h : ofOrder g lib settings order = .ok d) :
    Accounts (bench g lib settings {}).Unreserved [] d.scope.declared
      (owners g lib settings order) d.names := by
  refine foldlM_eq_ok_progress (fun done d ↦ Accounts (bench g lib settings {}).Unreserved []
    d.scope.declared (owners g lib settings done) d.names) h (.none _ _) ?_
  intro done d d' id _ hadd hd
  rw [owners_snoc d]
  rcases addNode_cases hadd with ⟨hunknown, rfl⟩ |
    ⟨n, t, wires, stem, scope, e, scope', hn, -, hstem, he, rfl⟩
  · rw [Bench.declarers_of_unknown hunknown, List.append_nil]
    exact hd
  · have hb : (bench g lib settings d).IsKeyed := hlib
    have hnode := Bench.instantiate_accounts hb (Bench.unroll_separates hb _) hn
      (Scope.reserves_of_reserve hstem) he
    rw [names_append]
    exact hd.trans hnode

end Draft

theorem Library.builtin_hasKeys {name : String} {t : NodeType}
    (h : Library.builtin.find? name = some t) : ∃ keys, HasKeys t keys :=
  Catalogue.hasKeys_of_mem t (Library.mem_of_find?_ofList h)

/-- Of two declarations of the main function with the same name, the later one belongs to a node that
writes the fragment and has no output for its colour. Without such nodes all names are distinct. -/
theorem compile_distinct {g : Graph} {settings : Settings} {target : Target} {shader : Shader}
    (h : compile g .builtin settings target = .ok shader) :
    ∃ id plan draft terminal owners, target.node? g .builtin = some id ∧
      schedule g .builtin id = .ok plan ∧ Draft.ofOrder g .builtin settings plan.order = .ok draft ∧
      shader.source =
        assemble settings.prologue draft.helpers (draft.blocks.map blockText) terminal ∧
      owners = Draft.owners g .builtin settings plan.order ∧ owners.length = draft.names.length ∧
      ((owners.zip draft.names).Pairwise fun x y ↦ x.2 = y.2 →
        (Draft.bench g .builtin settings {}).Overlooks y.1) ∧
      ((∀ c ∈ owners, ¬ (Draft.bench g .builtin settings {}).Overlooks c) → draft.names.Nodup) := by
  obtain ⟨id, plan, t, draft, terminal, hid, hplan, -, hdraft, -, rfl⟩ := compile_eq_ok h
  have haccounts := Draft.accounts_of_ofOrder (fun _ _ ↦ Library.builtin_hasKeys) hdraft
  refine ⟨id, plan, draft, terminal, _, hid, hplan, hdraft, rfl, rfl, haccounts.length_eq, ?_, ?_⟩
  · exact haccounts.pairwise.imp fun hexempt heq ↦ (hexempt heq).1
  · intro hnone
    exact haccounts.nodup fun x hx hexempt ↦ hnone x.1 hx hexempt.1

def Sample.alike : Graph where
  nodes := [
    { id := "p", typeName := "Polar" },
    { id := "n", typeName := "Loop",
      params := .ofList [("steps", .array [.string "p"]), ("iterations", .int 2)] },
    { id := "a_", typeName := "Brightness",
      inputs := [{ key := "amount", type := .float, wire := some ⟨"n", "result"⟩ }] },
    { id := "a", typeName := "Output", outputs := [{ key := "color", type := .vec3 }],
      inputs := [{ key := "color", type := .vec3, wire := some ⟨"a_", "color"⟩ }] }]

theorem compile_distinct_alike :
    ∃ shader draft, compile Sample.alike .builtin {} .output = .ok shader ∧
      Draft.ofOrder Sample.alike .builtin {} ["n", "a_", "a"] = .ok draft ∧
      draft.names = ["n_i0_p_delta", "n_i0_p_radius", "n_i0_p_angle", "n_i1_p_delta",
        "n_i1_p_radius", "n_i1_p_angle", "n_result", "a_color", "a_1_color"] ∧
      Draft.owners Sample.alike .builtin {} ["n", "a_", "a"] =
        ["p", "p", "p", "p", "p", "p", "n", "a_", "a"] ∧
      draft.names.Nodup := by
  have hrun : (compile Sample.alike .builtin {} .output).isOk ∧
      Target.node? Sample.alike .builtin .output = some "a" ∧
      (schedule Sample.alike .builtin "a").map (·.order) = .ok ["n", "a_", "a"] ∧
      (Draft.ofOrder Sample.alike .builtin {} ["n", "a_", "a"]).map Draft.names = .ok
        ["n_i0_p_delta", "n_i0_p_radius", "n_i0_p_angle", "n_i1_p_delta", "n_i1_p_radius",
          "n_i1_p_angle", "n_result", "a_color", "a_1_color"] ∧
      Draft.owners Sample.alike .builtin {} ["n", "a_", "a"] =
        ["p", "p", "p", "p", "p", "p", "n", "a_", "a"] := by
    decide +kernel
  have hsockets : ∀ n ∈ Sample.alike.nodes, ∀ t, Library.builtin.find? n.typeName = some t →
      (∃ alpha, t.role = .output alpha) → "color" ∈ outputKeys n t := by
    have hall : ∀ n ∈ Sample.alike.nodes, (Library.builtin.find? n.typeName).all fun t ↦
        (∃ alpha, t.role = .output alpha) → "color" ∈ outputKeys n t := by decide +kernel
    intro n hn t ht
    have hkey := hall n hn
    rw [ht] at hkey
    exact of_decide_eq_true hkey
  obtain ⟨hok, hout, horder, hnames, howners⟩ := hrun
  obtain ⟨shader, hs⟩ := exists_of_isOk hok
  obtain ⟨id, plan, draft, -, owners, hid, hplan, hdraft, -, -, -, -, hnodup⟩ := compile_distinct hs
  obtain rfl := Option.some.inj (hid.symm.trans hout)
  have hdistinct := hnodup fun c _ ⟨n, t, hn, hrole, hkey⟩ ↦
    hkey (hsockets n (List.mem_of_find?_eq_some hn.node) t hn.type hrole)
  rw [of_map_eq_ok horder hplan] at hdraft
  exact ⟨shader, draft, hs, hdraft, of_map_eq_ok hnames hdraft, howners, hdistinct⟩

/-- An output without such a socket, whose colour gets the name of another variable. -/
def Sample.clash : Graph where
  nodes := [
    { id := "a_", typeName := "Color" },
    { id := "a", typeName := "Output",
      inputs := [{ key := "color", type := .vec3, wire := some ⟨"a_", "color"⟩ }] }]

theorem compile_clash :
    ∃ shader plan draft terminal, compile Sample.clash .builtin {} .output = .ok shader ∧
      schedule Sample.clash .builtin "a" = .ok plan ∧
      Draft.ofOrder Sample.clash .builtin {} plan.order = .ok draft ∧
      shader.source =
        assemble ({} : Settings).prologue draft.helpers (draft.blocks.map blockText) terminal ∧
      draft.blocks.map blockText =
        ["vec3 a_color = vec3(1.0, 1.0, 1.0);", "vec3 a_color = a_color;"] ∧
      ¬ draft.names.Nodup := by
  have hrun : (compile Sample.clash .builtin {} .output).isOk ∧
      Target.node? Sample.clash .builtin .output = some "a" ∧
      (schedule Sample.clash .builtin "a").map (·.order) = .ok ["a_", "a"] ∧
      (Draft.ofOrder Sample.clash .builtin {} ["a_", "a"]).map
        (fun d ↦ (d.blocks.map blockText, d.names)) =
        .ok (["vec3 a_color = vec3(1.0, 1.0, 1.0);", "vec3 a_color = a_color;"],
          ["a_color", "a_color"]) := by decide +kernel
  obtain ⟨hok, hout, horder, htexts⟩ := hrun
  obtain ⟨shader, hs⟩ := exists_of_isOk hok
  obtain ⟨id, plan, t, draft, terminal, hid, hplan, -, hdraft, -, rfl⟩ := compile_eq_ok hs
  obtain rfl := Option.some.inj (hid.symm.trans hout)
  rw [← of_map_eq_ok horder hplan] at htexts
  have hboth := of_map_eq_ok htexts hdraft
  obtain ⟨hblocks, hnames⟩ := Prod.mk.inj hboth
  refine ⟨_, plan, draft, terminal, hs, hplan, hdraft, rfl, hblocks, ?_⟩
  rw [hnames]
  decide

end NodeShader

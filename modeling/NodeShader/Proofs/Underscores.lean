import NodeShader.Proofs.Naming

namespace NodeShader.Glsl

def Paired (cs : List Char) : Prop := ['_', '_'] <:+: cs

/-- One pass over a text, from left to right: of each two underscores side by side one stays. A run of
more than two is shorter afterwards, but need not be a single one. -/
def mergePairs : List Char → List Char
  | '_' :: '_' :: cs => '_' :: mergePairs cs
  | c :: cs => c :: mergePairs cs
  | [] => []

inductive Merges : (rounds : Nat) → List Char → List Char → Prop
  | done {cs : List Char} (h : ¬ Paired cs) : Merges 0 cs cs
  | round {n : Nat} {cs ds : List Char} (h : Paired cs) (hrest : Merges n (mergePairs cs) ds) :
      Merges (n + 1) cs ds

variable {cs : List Char}

theorem not_paired_iff : ¬ Paired cs ↔ cs.IsChain fun a b ↦ a ≠ '_' ∨ b ≠ '_' := by
  rw [List.isChain_iff_forall_rel_of_append_cons_cons]
  constructor
  · intro h a b before after hcs
    by_contra hboth
    obtain ⟨rfl, rfl⟩ : a = '_' ∧ b = '_' := by simpa using hboth
    exact h ⟨before, after, by simp [hcs]⟩
  · rintro h ⟨before, after, hcs⟩
    have hpair := @h '_' '_' before after (by simp [← hcs])
    simp at hpair

theorem head?_mergePairs (cs : List Char) : (mergePairs cs).head? = cs.head? := by
  fun_induction mergePairs cs <;> rfl

theorem squeeze_mergePairs (cs : List Char) : squeeze (mergePairs cs) = squeeze cs := by
  fun_induction mergePairs cs with
  | case1 cs ih =>
    have hcollapse : squeeze ('_' :: '_' :: cs) = squeeze ('_' :: cs) := squeeze_collapse [] cs
    rw [hcollapse, squeeze_cons, squeeze_cons, head?_mergePairs, ih]
  | case2 c cs _ ih => rw [squeeze_cons, squeeze_cons, head?_mergePairs, ih]
  | case3 => rfl

theorem length_mergePairs_le (cs : List Char) : (mergePairs cs).length ≤ cs.length := by
  fun_induction mergePairs cs with
  | case1 cs ih => simp only [List.length_cons]; omega
  | case2 c cs _ ih => simpa using ih
  | case3 => exact Nat.le_refl 0

theorem length_mergePairs_lt (h : Paired cs) : (mergePairs cs).length < cs.length := by
  fun_induction mergePairs cs with
  | case1 cs ih =>
    have hle := length_mergePairs_le cs
    simp only [List.length_cons]
    omega
  | case2 c cs hne ih =>
    rcases List.infix_cons_iff.1 h with hstart | hrest
    · obtain ⟨after, hafter⟩ := hstart
      obtain ⟨rfl, rfl⟩ := List.cons.inj hafter
      exact (hne after rfl rfl).elim
    · simpa using ih hrest
  | case3 => cases List.infix_nil.1 h

/-- The passes come to an end, and what they leave is the text with single underscores. -/
theorem exists_merges (cs : List Char) : ∃ n ≤ cs.length, Merges n cs (squeeze cs) := by
  induction h : cs.length using Nat.strong_induction_on generalizing cs with
  | _ k ih =>
    by_cases hpaired : Paired cs
    · -- A pass keeps the single underscores to come and leaves a shorter text.
      have hshorter := length_mergePairs_lt hpaired
      obtain ⟨n, hn, hmerges⟩ := ih (mergePairs cs).length (h ▸ hshorter) (mergePairs cs) rfl
      rw [squeeze_mergePairs] at hmerges
      exact ⟨n + 1, by omega, .round hpaired hmerges⟩
    · rw [squeeze_of_isChain (not_paired_iff.1 hpaired)]
      exact ⟨0, Nat.zero_le k, .done hpaired⟩

/-- Making names is a projection onto the allowed ones: it gives nothing else and changes only what is
none. The double underscores go in finitely many passes. -/
theorem identifier_projection (s : String) :
    IsIdentifier (identifier s) ∧ identifier (identifier s) = identifier s ∧
      (identifier s = s ↔ IsIdentifier s) ∧
      ∃ n ≤ (guardStart (sanitize s)).length,
        Merges n (guardStart (sanitize s)) (identifier s).toList := by
  have hid := isIdentifier_identifier s
  refine ⟨hid, hid.identifier_eq, ⟨fun h ↦ h ▸ hid, IsIdentifier.identifier_eq⟩, ?_⟩
  rw [toList_identifier]
  exact exists_merges _

end NodeShader.Glsl

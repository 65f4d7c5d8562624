import NodeShader.Proofs.Identifier
import NodeShader.Scope
import Mathlib.Data.Fintype.Card
import Mathlib.Data.List.ProdSigma

namespace NodeShader

namespace Glsl

open Text

variable {xs ys : List Char} {stem stem' key key' : String}

theorem squeeze_cons (c : Char) (cs : List Char) :
    squeeze (c :: cs) =
      if c = '_' ∧ cs.head? = some '_' then squeeze cs else c :: squeeze cs := rfl

theorem squeeze_append (h : xs.getLast? = some '_' → ys.head? ≠ some '_') :
    squeeze (xs ++ ys) = squeeze xs ++ squeeze ys := by
  induction xs with
  | nil => rfl
  | cons c xs ih =>
    cases xs with
    | nil =>
      have hc : ¬ (c = '_' ∧ ys.head? = some '_') := fun hc ↦ h (congrArg some hc.1) hc.2
      simp [squeeze, hc]
    | cons d xs =>
      rw [List.getLast?_cons_cons] at h
      have hhead : (d :: xs ++ ys).head? = (d :: xs).head? := rfl
      rw [List.cons_append, squeeze_cons c (d :: xs ++ ys), squeeze_cons c (d :: xs), ih h, hhead]
      by_cases hc : c = '_' ∧ (d :: xs).head? = some '_'
      · rw [if_pos hc, if_pos hc]
      · rw [if_neg hc, if_neg hc, List.cons_append]

theorem squeeze_collapse (xs zs : List Char) :
    squeeze (xs ++ '_' :: '_' :: zs) = squeeze (xs ++ '_' :: zs) := by
  induction xs with
  | nil => simp [squeeze]
  | cons c xs ih =>
    have hhead : (xs ++ '_' :: '_' :: zs).head? = (xs ++ '_' :: zs).head? := by
      cases xs <;> rfl
    simp only [List.cons_append, squeeze, hhead, ih]

/-- What follows an underscore does not change what stands before it. -/
theorem squeeze_underscore (xs ys : List Char) :
    squeeze (xs ++ '_' :: ys) = squeeze (xs ++ ['_']) ++ squeeze (ys.dropWhile (· == '_')) := by
  induction ys with
  | nil => simp [squeeze]
  | cons c ys ih =>
    by_cases hc : c = '_'
    · subst hc
      rw [squeeze_collapse, ih]
      simp
    · have hhead : (c :: ys).head? ≠ some '_' := by simpa using hc
      rw [List.dropWhile_cons_of_neg (by simpa using hc), ← squeeze_append fun _ ↦ hhead,
        List.append_assoc, List.singleton_append]

theorem squeeze_of_isChain (h : xs.IsChain fun a b ↦ a ≠ '_' ∨ b ≠ '_') : squeeze xs = xs := by
  induction xs with
  | nil => rfl
  | cons c xs ih =>
    obtain ⟨hhead, htail⟩ := List.isChain_cons.1 h
    have hc : ¬ (c = '_' ∧ xs.head? = some '_') := by
      rintro ⟨rfl, hxs⟩
      simpa using hhead '_' hxs
    rw [squeeze, if_neg hc, ih htail]

theorem IsIdentifier.identifier_eq (h : IsIdentifier stem) : identifier stem = stem := by
  obtain ⟨c, cs, hcs, hc⟩ := h.start
  have hguard : guardStart stem.toList = stem.toList := by simp [hcs, guardStart, hc]
  rw [← String.toList_inj, toList_identifier, sanitize_of_word h.word, hguard,
    squeeze_of_isChain h.single]

theorem getLast?_squeeze (xs : List Char) : (squeeze xs).getLast? = xs.getLast? := by
  induction xs with
  | nil => rfl
  | cons c xs ih =>
    cases xs with
    | nil => simp [squeeze]
    | cons d xs =>
      rw [List.getLast?_cons_cons, ← ih, squeeze]
      split
      · rfl
      · obtain ⟨tail, htail⟩ := List.head?_eq_some_iff.1 (head?_squeeze (d :: xs))
        rw [htail, List.getLast?_cons_cons]

theorem guardStart_append (xs : List Char) :
    ∃ zs, ∀ ys, guardStart (xs ++ '_' :: ys) = zs ++ '_' :: ys := by
  cases xs with
  | nil => exact ⟨[], fun ys ↦ rfl⟩
  | cons c xs =>
    by_cases hc : c.isDigit
    · exact ⟨'n' :: c :: xs, fun ys ↦ by simp [guardStart, hc]⟩
    · exact ⟨c :: xs, fun ys ↦ by simp [guardStart, hc]⟩

/-- How the variables of a stem begin, up to the underscore before the key. -/
def stemPart (stem : String) : List Char := squeeze (guardStart (sanitize stem ++ ['_']))

theorem toList_variableName (stem key : String) :
    (variableName stem key).toList =
      stemPart stem ++ squeeze ((sanitize key).dropWhile (· == '_')) := by
  obtain ⟨zs, hzs⟩ := guardStart_append (sanitize stem)
  have hsplit : sanitize (stem ++ "_" ++ key) = sanitize stem ++ '_' :: sanitize key := by
    simp [sanitize, isWordChar]
  rw [stemPart, hzs [], ← squeeze_underscore, ← hzs (sanitize key), ← hsplit]
  exact toList_identifier _

theorem getLast?_stemPart (stem : String) : (stemPart stem).getLast? = some '_' := by
  obtain ⟨zs, hzs⟩ := guardStart_append (sanitize stem)
  rw [stemPart, getLast?_squeeze, hzs []]
  simp

def IsPlainKey (key : String) : Prop := ∀ c ∈ key.toList, isWordChar c ∧ c ≠ '_'

instance (key : String) : Decidable (IsPlainKey key) :=
  List.decidableBAll (fun c ↦ isWordChar c ∧ c ≠ '_') key.toList

theorem IsPlainKey.underscore_not_mem (h : IsPlainKey key) : '_' ∉ key.toList := fun hmem ↦
  (h '_' hmem).2 rfl

theorem squeeze_of_not_mem (h : '_' ∉ xs) : squeeze (xs.dropWhile (· == '_')) = xs := by
  have hdrop : xs.dropWhile (· == '_') = xs := by
    cases xs with
    | nil => rfl
    | cons c xs =>
      have hc : c ≠ '_' := fun hc ↦ h (hc ▸ List.mem_cons_self)
      exact List.dropWhile_cons_of_neg (by simpa using hc)
  have hchain : xs.Pairwise fun a b ↦ a ≠ '_' ∨ b ≠ '_' :=
    List.pairwise_of_forall_mem_list fun a ha _ _ ↦ .inl fun hc ↦ h (hc ▸ ha)
  rw [hdrop, squeeze_of_isChain hchain.isChain]

theorem IsPlainKey.toList_variableName (h : IsPlainKey key) (stem : String) :
    (variableName stem key).toList = stemPart stem ++ key.toList := by
  rw [Glsl.toList_variableName, sanitize_of_word fun c hc ↦ (h c hc).1, squeeze_of_not_mem h.underscore_not_mem]

/-- Texts that end in an underscore, followed by ones that have none. -/
theorem append_inj_of_underscore {us vs : List Char} (hxs : xs.getLast? = some '_')
    (hys : ys.getLast? = some '_') (hus : '_' ∉ us) (hvs : '_' ∉ vs) (h : xs ++ us = ys ++ vs) :
    xs = ys ∧ us = vs := by
  have hnil : ∀ as bs cs : List Char, (as ++ bs).getLast? = some '_' → '_' ∉ bs ++ cs → bs = [] := by
    intro as bs cs hlast hmem
    rcases List.eq_nil_or_concat bs with rfl | ⟨bs, c, rfl⟩
    · rfl
    · obtain rfl : c = '_' := by simpa using hlast
      simp at hmem
  rcases List.append_eq_append_iff.1 h with ⟨zs, rfl, rfl⟩ | ⟨zs, rfl, rfl⟩
  · obtain rfl := hnil xs zs vs hys hus
    simp
  · obtain rfl := hnil ys zs us hxs hvs
    simp

/-- A variable tells its key, and its stem as far as variables show it. -/
theorem variableName_inj (hk : IsPlainKey key) (hk' : IsPlainKey key')
    (h : variableName stem key = variableName stem' key') :
    stemPart stem = stemPart stem' ∧ key = key' := by
  have hlist := congrArg String.toList h
  rw [hk.toList_variableName, hk'.toList_variableName] at hlist
  obtain ⟨hstem, hkey⟩ := append_inj_of_underscore (getLast?_stemPart stem)
    (getLast?_stemPart stem') hk.underscore_not_mem hk'.underscore_not_mem hlist
  exact ⟨hstem, String.toList_inj.1 hkey⟩

theorem variableName_congr (h : stemPart stem = stemPart stem') (key : String) :
    variableName stem key = variableName stem' key := by
  refine String.toList_inj.1 ?_
  rw [toList_variableName, toList_variableName, h]

theorem variableName_stem_inj (h : variableName stem key = variableName stem' key) :
    stemPart stem = stemPart stem' := by
  have hlist := congrArg String.toList h
  rw [toList_variableName, toList_variableName] at hlist
  exact List.append_cancel_right hlist

theorem IsIdentifier.stemPart_eq (h : IsIdentifier stem) :
    stemPart stem = squeeze (stem.toList ++ ['_']) := by
  obtain ⟨c, cs, hcs, hc⟩ := h.start
  rw [stemPart, sanitize_of_word h.word, hcs]
  simp [guardStart, hc]

theorem IsIdentifier.stemPart_of_getLast? (h : IsIdentifier stem)
    (hlast : stem.toList.getLast? ≠ some '_') : stemPart stem = stem.toList ++ ['_'] := by
  rw [h.stemPart_eq, squeeze_append fun hu ↦ absurd hu hlast, squeeze_of_isChain h.single]
  rfl

theorem isPlainKey_toString (n : Nat) : IsPlainKey (toString n) := by
  intro c hc
  rw [toList_toString] at hc
  have hdigit := Nat.isDigit_of_mem_toDigits (by decide) (by decide) hc
  refine ⟨by simp [isWordChar, Char.isAlphanum, hdigit], ?_⟩
  rintro rfl
  cases hdigit

end Glsl

namespace Scope

open Glsl

variable {base : String} {free : String → Bool}

theorem candidate_succ (base : String) (n : Nat) :
    candidate base (n + 1) = variableName base (toString (n + 1)) := rfl

theorem stemPart_candidate (base : String) (n : Nat) :
    stemPart (candidate base (n + 1)) = stemPart base ++ Nat.toDigits 10 (n + 1) ++ ['_'] := by
  have hplain := isPlainKey_toString (n + 1)
  have hlist : (candidate base (n + 1)).toList = stemPart base ++ Nat.toDigits 10 (n + 1) := by
    rw [candidate_succ, hplain.toList_variableName, toList_toString]
  have hlast : (candidate base (n + 1)).toList.getLast? ≠ some '_' := by
    rw [hlist, List.getLast?_append_of_ne_nil _ Nat.toDigits_ne_nil]
    intro hlast
    have hmem := List.mem_of_getLast? hlast
    rw [← toList_toString] at hmem
    exact hplain.underscore_not_mem hmem
  have hid : IsIdentifier (candidate base (n + 1)) := isIdentifier_variableName _ _
  rw [hid.stemPart_of_getLast? hlast, hlist]

theorem stemPart_candidate_injective (base : String) :
    Function.Injective fun n ↦ stemPart (candidate base n) := by
  have hlonger : ∀ n, stemPart (candidate base (n + 1)) ≠ stemPart (candidate base 0) := by
    intro n h
    rw [stemPart_candidate, List.append_assoc] at h
    simpa using List.append_right_eq_self.1 h
  intro n m h
  cases n with
  | zero =>
    cases m with
    | zero => rfl
    | succ m => exact absurd h.symm (hlonger m)
  | succ n =>
    cases m with
    | zero => exact absurd h (hlonger n)
    | succ m =>
      simp only [stemPart_candidate, List.append_cancel_right_eq, List.append_cancel_left_eq] at h
      have hnumber := congrArg (Nat.ofDigitChars 10 · 0) h
      simpa [Nat.ofDigitChars_toDigits] using hnumber

/-- What the search gives is a candidate, and it went by those before only because they were taken. -/
theorem exists_first_candidate (free : String → Bool) (base : String) (budget n : Nat) :
    ∃ m ≤ n + budget, firstFree free base budget n = candidate base m ∧
      ∀ k, n ≤ k → k < m → ¬ free (candidate base k) := by
  induction budget generalizing n with
  | zero => exact ⟨n, Nat.le_refl n, rfl, fun k hk hlt ↦ absurd hk (Nat.not_le.2 hlt)⟩
  | succ budget ih =>
    unfold firstFree
    split
    · exact ⟨n, by omega, rfl, fun k hk hlt ↦ absurd hk (Nat.not_le.2 hlt)⟩
    · rename_i hbusy
      obtain ⟨m, hm, heq, hskipped⟩ := ih (n + 1)
      refine ⟨m, by omega, heq, fun k hk hlt ↦ ?_⟩
      by_cases hkn : k = n
      · exact hkn ▸ hbusy
      · exact hskipped k (by omega) hlt

theorem firstFree_free {budget n m : Nat} (hn : n ≤ m) (hm : m ≤ n + budget)
    (h : free (candidate base m)) : free (firstFree free base budget n) := by
  induction budget generalizing n with
  | zero =>
    obtain rfl : m = n := by omega
    exact h
  | succ budget ih =>
    rw [firstFree]
    split
    · assumption
    · rename_i hbusy
      have hne : n ≠ m := fun hnm ↦ hbusy (hnm ▸ h)
      exact ih (by omega) (by omega)

/-- Where each of some numbers has an obstacle of its own, there are at least as many obstacles. -/
theorem le_length_of_obstacles {α : Type} [DecidableEq α] {R : Nat → α → Prop} {xs : List α}
    {bound : Nat} (hR : ∀ n m x, R n x → R m x → n = m) (h : ∀ n < bound, ∃ x ∈ xs, R n x) :
    bound ≤ xs.length := by
  choose f hf hRf using fun n : Fin bound ↦ h n n.2
  calc bound = (Finset.univ : Finset (Fin bound)).card := by simp
    _ ≤ xs.toFinset.card := by
      refine Finset.card_le_card_of_injOn f (fun n _ ↦ ?_) (fun n _ m _ hnm ↦ ?_)
      · exact List.mem_toFinset.2 (hf n)
      · exact Fin.ext (hR n m (f n) (hRf n) (hnm ▸ hRf m))
    _ ≤ xs.length := List.toFinset_card_le xs

def Obstructs (stem : String) : String ⊕ String × String → Prop
  | .inl taken => taken = stem
  | .inr (key, name) => name = variableName stem key

theorem Obstructs.stemPart_eq {stem stem' : String} {x : String ⊕ String × String}
    (h : Obstructs stem x) (h' : Obstructs stem' x) : stemPart stem = stemPart stem' := by
  cases x with
  | inl taken => rw [show stem = stem' from h.symm.trans h']
  | inr x => exact variableName_stem_inj (h.symm.trans h')

theorem isFree_iff {s : Scope} {keys : List String} {stem : String} :
    s.isFree keys stem ↔ stem ∉ s.stems ∧ ∀ k ∈ keys, variableName stem k ∉ s.declared := by
  simp [isFree]

/-- The search for a stem finds a free one. -/
theorem isFree_reserve (s : Scope) (base : String) (keys : List String) :
    s.isFree keys (s.reserve base keys).1 := by
  by_contra hbusy
  let obstacles := s.stems.map Sum.inl ++ (keys ×ˢ s.declared).map Sum.inr
  have hlength : obstacles.length = s.stems.length + keys.length * s.declared.length := by
    simp [obstacles, List.length_product]
  -- Otherwise each candidate meets an obstacle of its own, and there is one candidate too many.
  have hcount : s.stems.length + keys.length * s.declared.length + 1 ≤ obstacles.length := by
    refine le_length_of_obstacles (R := fun n ↦ Obstructs (candidate (identifier base) n)) ?_ ?_
    · intro n m x hn hm
      exact stemPart_candidate_injective (identifier base) (hn.stemPart_eq hm)
    · intro n hn
      have htaken : ¬ s.isFree keys (candidate (identifier base) n) := fun hfree ↦
        hbusy (firstFree_free (Nat.zero_le n) (by omega) hfree)
      rw [isFree_iff, not_and_or, not_not] at htaken
      rcases htaken with hstem | hname
      · exact ⟨.inl _, by simpa [obstacles] using hstem, rfl⟩
      · push Not at hname
        obtain ⟨key, hkey, hname⟩ := hname
        exact ⟨.inr (key, _), by simpa [obstacles] using ⟨hkey, hname⟩, rfl⟩
  omega

end Scope

end NodeShader

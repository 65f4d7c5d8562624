import NodeShader.Glsl.Identifier
import Mathlib.Data.List.Chain

namespace NodeShader.Glsl

open Text

/-- A name that the shading language allows. Double underscores are reserved. -/
structure IsIdentifier (s : String) : Prop where
  word : ∀ c ∈ s.toList, isWordChar c
  start : ∃ c cs, s.toList = c :: cs ∧ c.isDigit = false
  single : s.toList.IsChain fun a b ↦ a ≠ '_' ∨ b ≠ '_'

def sanitize (s : String) : List Char := s.toList.map fun c ↦ if isWordChar c then c else '_'

variable {c : Char} {cs : List Char} {s : String}

theorem toList_identifier (s : String) :
    (identifier s).toList = squeeze (guardStart (sanitize s)) :=
  String.toList_ofList

theorem isWordChar_of_mem_sanitize (h : c ∈ sanitize s) : isWordChar c := by
  obtain ⟨d, -, rfl⟩ := List.mem_map.1 h
  split
  · assumption
  · rfl

theorem sanitize_of_word (h : ∀ c ∈ s.toList, isWordChar c) : sanitize s = s.toList :=
  (List.map_congr_left fun c hc ↦ if_pos (h c hc)).trans (List.map_id _)

theorem toList_toString (n : Nat) : (toString n).toList = Nat.toDigits 10 n := by
  rw [Nat.toString_eq_ofList_toDigits, String.toList_ofList]

theorem mem_of_mem_squeeze (h : c ∈ squeeze cs) : c ∈ cs := by
  fun_induction squeeze cs with
  | case1 => cases h
  | case2 d cs _ ih => exact .tail d (ih h)
  | case3 d cs _ ih =>
    rcases List.mem_cons.1 h with rfl | h
    · exact List.mem_cons_self
    · exact .tail d (ih h)

theorem head?_squeeze (cs : List Char) : (squeeze cs).head? = cs.head? := by
  fun_induction squeeze cs with
  | case1 => rfl
  | case2 c cs h ih => rw [ih, h.2, h.1, List.head?_cons]
  | case3 c cs _ _ => rfl

theorem isChain_squeeze (cs : List Char) : (squeeze cs).IsChain fun a b ↦ a ≠ '_' ∨ b ≠ '_' := by
  fun_induction squeeze cs with
  | case1 => exact .nil
  | case2 c cs _ ih => exact ih
  | case3 c cs h ih =>
    refine List.isChain_cons.2 ⟨fun d hd ↦ ?_, ih⟩
    rw [head?_squeeze] at hd
    by_contra hboth
    obtain ⟨rfl, rfl⟩ : c = '_' ∧ d = '_' := by simpa using hboth
    exact h ⟨rfl, hd⟩

theorem guardStart_cases (cs : List Char) :
    (∃ c tail, cs = c :: tail ∧ c.isDigit = false ∧ guardStart cs = cs) ∨
      guardStart cs = 'n' :: cs := by
  cases cs with
  | nil => exact .inr rfl
  | cons c tail =>
    cases hc : c.isDigit with
    | true => exact .inr (by simp [guardStart, hc])
    | false => exact .inl ⟨c, tail, rfl, hc, by simp [guardStart, hc]⟩

/-- Whatever the text, the name made from it is allowed. -/
theorem isIdentifier_identifier (s : String) : IsIdentifier (identifier s) := by
  constructor <;> rw [toList_identifier]
  · intro c hc
    have hmem := mem_of_mem_squeeze hc
    rcases guardStart_cases (sanitize s) with ⟨-, -, -, -, hguard⟩ | hguard
    · exact isWordChar_of_mem_sanitize (hguard ▸ hmem)
    · rcases List.mem_cons.1 (hguard ▸ hmem) with rfl | hmem
      · rfl
      · exact isWordChar_of_mem_sanitize hmem
  · have hhead := head?_squeeze (guardStart (sanitize s))
    obtain ⟨c, hc, hdigit⟩ :
        ∃ c, (guardStart (sanitize s)).head? = some c ∧ c.isDigit = false := by
      rcases guardStart_cases (sanitize s) with ⟨c, tail, hcs, hdigit, hguard⟩ | hguard
      · exact ⟨c, by rw [hguard, hcs]; rfl, hdigit⟩
      · exact ⟨'n', by rw [hguard]; rfl, rfl⟩
    obtain ⟨tail, htail⟩ := List.head?_eq_some_iff.1 (hhead.trans hc)
    exact ⟨c, tail, htail, hdigit⟩
  · exact isChain_squeeze _

theorem isIdentifier_variableName (stem key : String) : IsIdentifier (variableName stem key) :=
  isIdentifier_identifier _

end NodeShader.Glsl

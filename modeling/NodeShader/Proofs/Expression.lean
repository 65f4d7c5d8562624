import NodeShader.Glsl.Type
import NodeShader.Proofs.Digits
import NodeShader.Proofs.Identifier

namespace NodeShader

namespace Text

def endsStatement (c : Char) : Bool := c == '\n' || c == ';' || c == '\x7b' || c == '\x7d'

/-- The number of open parentheses after a character. None can be closed that was not opened. -/
def enclose (depth : Nat) (c : Char) : Option Nat :=
  if c = '(' then some (depth + 1)
  else if c = ')' then if depth = 0 then none else some (depth - 1)
  else some depth

def nesting (depth : Nat) (cs : List Char) : Option Nat := cs.foldlM enclose depth

/-- Nothing in the text ends a statement, and its parentheses match. -/
structure Balanced (s : String) : Prop where
  inert : ∀ c ∈ s.toList, endsStatement c = false
  closed : nesting 0 s.toList = some 0

instance (s : String) : Decidable (Balanced s) :=
  decidable_of_iff (s.toList.all (!endsStatement ·) ∧ nesting 0 s.toList = some 0)
    ⟨fun h ↦ ⟨by simpa using h.1, h.2⟩, fun h ↦ ⟨by simpa using h.inert, h.closed⟩⟩

variable {depth depth' : Nat} {cs xs ys : List Char} {s t : String} {c : Char}

theorem nesting_append :
    nesting depth (xs ++ ys) = (nesting depth xs).bind fun depth ↦ nesting depth ys :=
  List.foldlM_append

/-- What is open around a text stays open. -/
theorem nesting_add (h : nesting depth cs = some depth') (k : Nat) :
    nesting (depth + k) cs = some (depth' + k) := by
  induction cs generalizing depth with
  | nil =>
    cases h
    rfl
  | cons c cs ih =>
    obtain ⟨d, hd, h⟩ := Option.bind_eq_some_iff.1 h
    have hstep : enclose (depth + k) c = some (d + k) := by
      unfold enclose at hd ⊢
      grind
    exact Option.bind_eq_some_iff.2 ⟨d + k, hstep, ih h⟩

theorem nesting_of_plain (h : ∀ c ∈ cs, c ≠ '(' ∧ c ≠ ')') (depth : Nat) :
    nesting depth cs = some depth := by
  induction cs with
  | nil => rfl
  | cons c cs ih =>
    obtain ⟨⟨hopen, hclose⟩, htail⟩ := List.forall_mem_cons.1 h
    have hstep : enclose depth c = some depth := by simp [enclose, hopen, hclose]
    exact Option.bind_eq_some_iff.2 ⟨depth, hstep, ih htail⟩

namespace Balanced

theorem nesting_eq (h : Balanced s) (depth : Nat) : nesting depth s.toList = some depth := by
  simpa using nesting_add h.closed depth

theorem append (hs : Balanced s) (ht : Balanced t) : Balanced (s ++ t) where
  inert c hc := by
    rw [String.toList_append, List.mem_append] at hc
    exact hc.elim (hs.inert c) (ht.inert c)
  closed := by
    rw [String.toList_append, nesting_append, hs.closed]
    exact ht.closed

/-- Text in front opens what the text behind closes. -/
theorem between {l r : String} {k : Nat} (h : Balanced s)
    (hl : l.toList.all (!endsStatement ·) ∧ nesting 0 l.toList = some k)
    (hr : r.toList.all (!endsStatement ·) ∧ nesting k r.toList = some 0) :
    Balanced (l ++ s ++ r) where
  inert c hc := by
    simp only [String.toList_append, List.mem_append] at hc
    rcases hc with (hc | hc) | hc
    · simpa using List.all_eq_true.1 hl.1 c hc
    · exact h.inert c hc
    · simpa using List.all_eq_true.1 hr.1 c hc
  closed := by
    rw [String.toList_append, String.toList_append, nesting_append, nesting_append, hl.2,
      Option.bind_some, h.nesting_eq k]
    exact hr.2

theorem parens (h : Balanced s) : Balanced ("(" ++ s ++ ")") :=
  h.between (k := 1) (by decide) (by decide)

theorem intercalate {ss : List String} (hs : Balanced s) (h : ∀ t ∈ ss, Balanced t) :
    Balanced (s.intercalate ss) := by
  induction ss with
  | nil => exact (by decide : Balanced "")
  | cons t ss ih =>
    obtain ⟨ht, htail⟩ := List.forall_mem_cons.1 h
    cases ss with
    | nil => simpa using ht
    | cons u ss =>
      have happend := (ht.append hs).append (ih htail)
      rwa [← String.intercalate_cons_cons] at happend

end Balanced

def isPlain (c : Char) : Bool := isWordChar c || c == '.' || c == '-' || c == '+'

theorem balanced_of_plain (h : ∀ c ∈ s.toList, isPlain c) : Balanced s where
  inert c hc := by
    have hplain := h c hc
    by_contra hends
    simp only [endsStatement, Bool.not_eq_false, Bool.or_eq_true, beq_iff_eq] at hends
    rcases hends with ((rfl | rfl) | rfl) | rfl <;> cases hplain
  closed := by
    refine nesting_of_plain (fun c hc ↦ ⟨?_, ?_⟩) 0
    · rintro rfl
      cases h _ hc
    · rintro rfl
      cases h _ hc

structure IsExpression (s : String) : Prop extends Balanced s where
  nonempty : s ≠ ""

theorem IsExpression.append_left (ht : IsExpression t) (hs : Balanced s) : IsExpression (s ++ t) :=
  ⟨hs.append ht.toBalanced, fun h ↦ ht.nonempty (String.append_eq_empty_iff.1 h).2⟩

theorem IsExpression.parens (h : Balanced s) : IsExpression ("(" ++ s ++ ")") := by
  refine ⟨h.parens, fun hempty ↦ ?_⟩
  simp at hempty

/-- A call, whose arguments may be none. -/
theorem IsExpression.call (hs : Balanced s) (ht : Balanced t) : IsExpression (s ++ "(" ++ t ++ ")") := by
  have hcall := (IsExpression.parens ht).append_left hs
  rwa [← String.append_assoc, ← String.append_assoc] at hcall

def Unbroken (s : String) : Prop := '\n' ∉ s.toList

instance (s : String) : Decidable (Unbroken s) := inferInstanceAs (Decidable (¬ _))

theorem Balanced.unbroken (h : Balanced s) : Unbroken s := by
  intro hmem
  cases h.inert _ hmem

theorem Unbroken.append (hs : Unbroken s) (ht : Unbroken t) : Unbroken (s ++ t) := by
  intro hmem
  rw [String.toList_append, List.mem_append] at hmem
  exact hmem.elim hs ht

theorem Unbroken.parens (h : Unbroken s) : Unbroken ("(" ++ s ++ ")") :=
  (Unbroken.append (by decide) h).append (by decide)

theorem not_mem_intercalate {ss : List String} (hs : c ∉ s.toList) (h : ∀ t ∈ ss, c ∉ t.toList) :
    c ∉ (s.intercalate ss).toList := by
  induction ss with
  | nil => simp
  | cons t ss ih =>
    obtain ⟨ht, htail⟩ := List.forall_mem_cons.1 h
    cases ss with
    | nil => simpa using ht
    | cons u ss =>
      simp only [String.intercalate_cons_cons, String.toList_append, List.mem_append, not_or]
      exact ⟨⟨ht, hs⟩, ih htail⟩

theorem Unbroken.intercalate {ss : List String} (hs : Unbroken s) (h : ∀ t ∈ ss, Unbroken t) :
    Unbroken (s.intercalate ss) := not_mem_intercalate hs h

/-- A text that goes up to a mark ends where the mark first stands. -/
theorem upTo_mark {mark : Char} {xs : List Char} (h : mark ∉ xs) (ys : List Char) :
    (xs ++ mark :: ys).takeWhile (· != mark) = xs ∧
      (xs ++ mark :: ys).dropWhile (· != mark) = mark :: ys := by
  have hxs : ∀ c ∈ xs, (c != mark) = true := by
    intro c hc
    have hne : c ≠ mark := fun heq ↦ h (heq ▸ hc)
    simpa using hne
  rw [List.takeWhile_append_of_pos hxs, List.dropWhile_append_of_pos hxs]
  simp

end Text

open Text

theorem Glsl.IsIdentifier.isExpression {s : String} (h : IsIdentifier s) : IsExpression s := by
  refine ⟨balanced_of_plain fun c hc ↦ by simp [isPlain, h.word c hc], ?_⟩
  rintro rfl
  obtain ⟨c, cs, hnil, -⟩ := h.start
  cases hnil

namespace Glsl

theorem isPlain_of_isDigit {c : Char} (h : c.isDigit) : isPlain c := by
  simp [isPlain, isWordChar, Char.isAlphanum, h]

theorem isPlain_digits {c : Char} {n : Nat} (h : c ∈ digits n) : isPlain c :=
  isPlain_of_isDigit (isDigit_of_mem_digits h)

theorem balanced_toString (n : Nat) : Balanced (toString n) := by
  refine balanced_of_plain fun c hc ↦ isPlain_digits (n := n) ?_
  rwa [toList_toString] at hc

theorem isPlain_trimDecimals {c : Char} {n : Nat} (h : c ∈ trimDecimals (sixDigits n)) : isPlain c :=
  isPlain_of_isDigit (isDigit_of_mem_trimDecimals (fun _ ↦ isDigit_of_mem_sixDigits) c h)

theorem isPlain_floatLiteral {c : Char} {x : Binary32} (h : c ∈ (floatLiteral x).toList) : isPlain c := by
  rw [floatLiteral_eq] at h
  split at h
  · simp only [String.toList_ofList, List.mem_append, List.mem_cons] at h
    rcases h with (hsign | hwhole) | rfl | hdecimals
    · split at hsign
      · obtain rfl := List.mem_singleton.1 hsign
        rfl
      · cases hsign
    · exact isPlain_digits hwhole
    · rfl
    · exact isPlain_trimDecimals hdecimals
  · have hplain : "0.0".toList.all isPlain := by decide
    exact List.all_eq_true.1 hplain c h

theorem isExpression_floatLiteral (x : Binary32) : IsExpression (floatLiteral x) := by
  refine ⟨balanced_of_plain fun c ↦ isPlain_floatLiteral, fun h ↦ ?_⟩
  rw [floatLiteral_eq] at h
  split at h
  · simp at h
  · exact absurd h (by decide)

theorem balanced_floatLiterals (xs : List Binary32) : Balanced (", ".intercalate (xs.map floatLiteral)) := by
  refine .intercalate (by decide) fun t ht ↦ ?_
  obtain ⟨x, -, rfl⟩ := List.mem_map.1 ht
  exact (isExpression_floatLiteral x).toBalanced

theorem isExpression_vectorLiteral (xs : List Binary32) : IsExpression (vectorLiteral xs) := by
  have hname : Balanced ("vec" ++ toString xs.length) := .append (by decide) (balanced_toString _)
  exact .call hname (balanced_floatLiterals xs)

end Glsl

theorem GlslType.isExpression_zero (t : GlslType) : IsExpression t.zero := by
  cases t <;> exact ⟨by decide, by decide⟩

namespace Term

variable {x : Term}

theorem isExpression_spread (h : IsExpression x.text) (t : GlslType) :
    IsExpression (x.spread t).text := by
  cases t with
  | float => exact h
  | vec2 => exact ⟨h.between (k := 1) (by decide) (by decide), by simp [spread]⟩
  | vec3 => exact ⟨h.between (k := 1) (by decide) (by decide), by simp [spread]⟩
  | vec4 => exact ⟨h.between (k := 2) (by decide) (by decide), by simp [spread]⟩

theorem unbroken_coerce (h : Unbroken x.text) (t : GlslType) : Unbroken (x.coerce t).text := by
  unfold coerce
  split
  · exact h
  · split
    · cases t with
      | float => exact h
      | vec2 | vec3 | vec4 => exact (Unbroken.append (by decide) h).append (by decide)
    · exact h

theorem isExpression_coerce (h : IsExpression x.text) (t : GlslType) :
    IsExpression (x.coerce t).text := by
  unfold coerce
  split
  · exact h
  · split
    · exact isExpression_spread h t
    · exact h

end Term

end NodeShader

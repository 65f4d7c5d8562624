import NodeShader.Proofs.Expression
import NodeShader.Proofs.Formula.RoundTrip

namespace NodeShader.Formula

open Text

variable {e : Formula} {text source : String} {bound : String → Option String}

theorem Numeral.isPlain {written kept rest : List Char} (h : Numeral written kept rest) :
    ∀ c ∈ kept, Text.isPlain c := by
  obtain ⟨hnumeric, -, -, -, hexponent, -⟩ := h
  have hdigit : ∀ c : Char, c.isDigit → Text.isPlain c := fun c ↦ Glsl.isPlain_of_isDigit
  intro c hc
  rcases List.mem_append.1 hc with hc | hc
  · have hc : c.isDigit ∨ c = '.' := by simpa [isNumeric] using hnumeric c hc
    rcases hc with hc | rfl
    · exact hdigit c hc
    · rfl
  · cases hexponent with
    | none => cases hc
    | @some _ sign _ _ _ hsign _ hds _ =>
      simp only [List.mem_cons, List.mem_append] at hc
      rcases hc with rfl | hc | hc
      · rfl
      · have hsign : sign = [] ∨ sign = ['+'] ∨ sign = ['-'] := by simpa using hsign
        rcases hsign with rfl | rfl | rfl
        · cases hc
        · obtain rfl := List.mem_singleton.1 hc
          rfl
        · obtain rfl := List.mem_singleton.1 hc
          rfl
      · exact hdigit c (hds c hc)

theorem isExpression_of_spells {t : Token} (h : Spells text.toList [t])
    (hplain : ∀ c ∈ text.toList, Text.isPlain c) : IsExpression text := by
  refine ⟨balanced_of_plain hplain, ?_⟩
  rintro rfl
  cases spells_nil_iff.1 h

theorem Token.Lexable.isExpression_name {x : String} (h : (Token.name x).Lexable) :
    IsExpression x := by
  refine isExpression_of_spells h.spells_name ?_
  obtain ⟨source, ls, hls, hmem⟩ := h
  obtain ⟨written, rest, hr⟩ := (spells_of_lexemes hls).exists_reads hmem
  cases hr with
  | name _ hword _ =>
    rw [String.toList_ofList]
    exact fun c hc ↦ by simp [Text.isPlain, hword c hc]
  | mark hm _ => cases hm

theorem Token.Lexable.isExpression_number {n : String} (h : (Token.number n).Lexable) :
    IsExpression (floatText n) := by
  refine isExpression_of_spells h.spells_number ?_
  obtain ⟨source, ls, hls, hmem⟩ := h
  obtain ⟨written, rest, hr⟩ := (spells_of_lexemes hls).exists_reads hmem
  cases hr with
  | number hn => exact hn.floatText.isPlain
  | mark hm _ => cases hm

theorem isExpression_unaryText (op : UnaryOp) : IsExpression op.text := by
  cases op <;> exact ⟨by decide, by decide⟩

theorem isExpression_binaryText (op : BinaryOp) : IsExpression op.text := by
  cases op <;> exact ⟨by decide, by decide⟩

/-- A property of texts that passes on to what is put together from them. -/
structure Glues (P : String → Prop) : Prop where
  word {s : String} : IsExpression s → P s
  lead {s t : String} : Balanced s → P t → P (s ++ t)
  join {s t : String} (m : String) : Balanced m → P s → P t → P (s ++ m ++ t)
  parens {s : String} : P s → P (parenthesize s)

namespace Glues

variable {P : String → Prop}

theorem ite_parenthesize {p : Prop} [Decidable p] (hP : Glues P) (h : P text) :
    P (if p then parenthesize text else text) := by
  split
  · exact hP.parens h
  · exact h

theorem parenthesize_renderAll {args : List Formula} (hP : Glues P) (h : ∀ a ∈ args, P (render 0 a)) :
    P (parenthesize (renderAll args)) := by
  by_cases hnil : args = []
  · subst hnil
    exact hP.word (.parens (by decide : Balanced ""))
  · apply hP.parens
    induction args with
    | nil => contradiction
    | cons a args ih =>
      obtain ⟨ha, hargs⟩ := List.forall_mem_cons.1 h
      cases args with
      | nil => exact ha
      | cons b args => exact hP.join ", " (by decide) ha (ih hargs (List.cons_ne_nil b args))

end Glues

theorem glues_isExpression : Glues IsExpression where
  word h := h
  lead hs ht := ht.append_left hs
  join _ hm hs ht := ht.append_left (hs.append hm)
  parens h := .parens h.toBalanced

theorem glues_unbroken : Glues Unbroken where
  word h := h.unbroken
  lead hs ht := hs.unbroken.append ht
  join _ hm hs ht := (hs.append hm.unbroken).append ht
  parens h := h.parens

structure Spliced (P : String → Prop) (e : Formula) : Prop where
  words : ∀ t ∈ e.words, t.Lexable
  spliced : ∀ text, .spliced text ∈ e.parts → P text

namespace Spliced

variable {P : String → Prop}

theorem part {p : Formula} (h : Spliced P e) (hp : p ∈ e.parts) : Spliced P p where
  words t ht := h.words t (words_of_mem_parts hp ht)
  spliced text ht := h.spliced text (parts_trans hp ht)

theorem render (hP : Glues P) (h : Spliced P e) (least : Nat) : P (e.render least) := by
  induction e generalizing least with
  | number n => exact hP.ite_parenthesize (hP.word (h.words _ List.mem_cons_self).isExpression_number)
  | name x => exact hP.ite_parenthesize (hP.word (h.words _ List.mem_cons_self).isExpression_name)
  | spliced text =>
    have htext := h.spliced text (self_mem_parts _)
    have hbody : P (if isAtomic text then text else parenthesize text) := by
      split
      · exact htext
      · exact hP.parens htext
    exact hP.ite_parenthesize hbody
  | call callee args ih =>
    have hcallee := (h.words _ List.mem_cons_self).isExpression_name
    have hargs : ∀ a ∈ args, P (a.render 0) := fun a ha ↦
      ih a ha (h.part (.tail _ (mem_partsAll.2 ⟨a, ha, self_mem_parts a⟩))) 0
    exact hP.ite_parenthesize (hP.lead hcallee.toBalanced (hP.parenthesize_renderAll hargs))
  | member base field ih =>
    have hbase := ih (h.part (.tail _ (self_mem_parts base))) postfixPrecedence
    have hfield : (Token.name field).Lexable := h.words _ (by simp [Formula.words])
    exact hP.ite_parenthesize (hP.join "." (by decide) hbase (hP.word hfield.isExpression_name))
  | unary op operand ih =>
    have hoperand := ih (h.part (.tail _ (self_mem_parts operand))) (unaryPrecedence + 1)
    exact hP.ite_parenthesize (hP.lead (isExpression_unaryText op).toBalanced hoperand)
  | binary op lhs rhs ihl ihr =>
    have hspace : Balanced " " := by decide
    have hlhs := ihl (h.part (by simp [parts, self_mem_parts])) op.precedence
    have hrhs := ihr (h.part (by simp [parts, self_mem_parts])) (op.precedence + 1)
    have hop := hP.join " " hspace hlhs (hP.word (isExpression_binaryText op))
    exact hP.ite_parenthesize (hP.join " " hspace hop hrhs)
  | conditional test yes no iht ihy ihn =>
    have htest := iht (h.part (by simp [parts, self_mem_parts])) (conditionalPrecedence + 1)
    have hyes := ihy (h.part (by simp [parts, self_mem_parts])) conditionalPrecedence
    have hno := ihn (h.part (by simp [parts, self_mem_parts])) conditionalPrecedence
    have hquestion := hP.join " ? " (by decide) htest hyes
    exact hP.ite_parenthesize (hP.join " : " (by decide) hquestion hno)

end Spliced

/-- What holds of the texts bound to names holds of the formula that they are put into. -/
theorem glued_toGlsl {P : String → Prop} (hP : Glues P) (hbound : ∀ x text, bound x = some text → P text)
    (h : toGlsl source bound = .ok text) : P text := by
  obtain ⟨e, he, h⟩ := bind_eq_ok.1 h
  cases h
  refine Spliced.render hP ⟨fun t ht ↦ lexable_of_parse he (words_substitute ht), fun text htext ↦ ?_⟩ 0
  rw [parts_substitute] at htext
  obtain ⟨p, hp, heq⟩ := List.mem_map.1 htext
  rcases substitute_eq_spliced heq with ⟨x, -, hx⟩ | rfl
  · exact hbound x text hx
  · exact absurd hp (not_spliced_of_parse he text)

theorem isExpression_toGlsl (hbound : ∀ x text, bound x = some text → IsExpression text)
    (h : toGlsl source bound = .ok text) : IsExpression text :=
  glued_toGlsl glues_isExpression hbound h

end NodeShader.Formula

import NodeShader.Proofs.Formula.Balance
import Mathlib.Algebra.BigOperators.Group.List.Basic
import Mathlib.Algebra.Order.BigOperators.Group.List
import Mathlib.Algebra.Order.Group.Nat
import Mathlib.Algebra.Ring.Nat

namespace NodeShader.Formula

variable {e p : Formula} {t : Token} {ts us : List Token} {cs written rest : List Char}
  {c : Category} {depth least least' : Nat} {f g : Formula → Nat} {args : List Formula}

def Token.isName : Token → Bool
  | name _ => true
  | _ => false

/-- The opening parentheses that group something. One that comes after a name belongs to a call;
`called` tells whether a name stands before the tokens. -/
def groupings (called : Bool) : List Token → Nat
  | [] => 0
  | t :: ts => (if t = .openParen ∧ called = false then 1 else 0) + groupings t.isName ts

theorem groupings_append (t : Token) (ht : t ≠ .openParen) (called : Bool) (ts us : List Token) :
    groupings called (ts ++ t :: us) = groupings called ts + groupings t.isName us := by
  induction ts generalizing called with
  | nil => simp [groupings, ht]
  | cons u ts ih =>
    rw [List.cons_append, groupings, groupings, ih]
    omega

theorem groupings_close (called : Bool) (ts : List Token) :
    groupings called (ts ++ [.closeParen]) = groupings called ts :=
  groupings_append .closeParen nofun called ts []

theorem groupings_commaSeparated (tss : List (List Token)) :
    groupings false (commaSeparated tss) = (tss.map (groupings false)).sum := by
  fun_induction commaSeparated tss with
  | case1 => rfl
  | case2 ts => simp
  | case3 ts tss _ ih =>
    rw [groupings_append .comma (by decide), List.map_cons, List.sum_cons, ← ih]
    rfl

theorem count_commaSeparated (tss : List (List Token)) :
    (commaSeparated tss).count .openParen = (tss.map (·.count .openParen)).sum := by
  fun_induction commaSeparated tss with
  | case1 => rfl
  | case2 ts => simp
  | case3 ts tss _ ih => simp [ih]

def total (f : Formula → Nat) (e : Formula) : Nat := (e.parts.map f).sum

section

variable (f : Formula → Nat)

@[simp] theorem total_call (callee : String) (args : List Formula) :
    total f (call callee args) = f (call callee args) + (args.map (total f)).sum := by
  have hargs : ((partsAll args).map f).sum = (args.map (total f)).sum := by
    induction args with
    | nil => rfl
    | cons a args ih => simp [partsAll, total, ih]
  simp [total, parts, hargs]

@[simp] theorem total_member (base : Formula) (field : String) :
    total f (member base field) = f (member base field) + total f base := by simp [total, parts]

@[simp] theorem total_unary (op : UnaryOp) (operand : Formula) :
    total f (unary op operand) = f (unary op operand) + total f operand := by simp [total, parts]

@[simp] theorem total_binary (op : BinaryOp) (lhs rhs : Formula) :
    total f (binary op lhs rhs) = f (binary op lhs rhs) + (total f lhs + total f rhs) := by
  simp [total, parts]

@[simp] theorem total_conditional (test yes no : Formula) :
    total f (conditional test yes no) =
      f (conditional test yes no) + (total f test + (total f yes + total f no)) := by
  simp [total, parts]

end

theorem total_floated (hf : ∀ p : Formula, f p.floated = f p) (e : Formula) :
    total f e.floated = total f e := by
  rw [total, parts_floated, List.map_map, total]
  exact congrArg List.sum (List.map_congr_left fun p _ ↦ hf p)

def wraps (least : Nat) (e : Formula) : Nat := if e.precedence < least then 1 else 0

theorem wraps_le_one (least : Nat) (e : Formula) : wraps least e ≤ 1 := by
  unfold wraps
  split <;> omega

theorem wraps_mono (h : least ≤ least') (e : Formula) : wraps least e ≤ wraps least' e := by
  unfold wraps
  split <;> split <;> omega

theorem wraps_of_le (h : least ≤ e.precedence) : wraps least e = 0 := if_neg (Nat.not_lt.2 h)

theorem wraps_of_lt (h : e.precedence < least) : wraps least e = 1 := if_pos h

theorem wraps_floated (least : Nat) (e : Formula) : wraps least e.floated = wraps least e := by
  have hprecedence : e.floated.precedence = e.precedence := by cases e <;> rfl
  rw [wraps, hprecedence, wraps]

/-- The operands of an expression that the grammar takes in parentheses only. -/
def forced : Formula → Nat
  | member base _ => wraps postfixPrecedence base
  | unary _ operand => wraps unaryPrecedence operand
  | binary op lhs rhs => wraps op.precedence lhs + wraps (op.precedence + 1) rhs
  | conditional test _ _ => wraps (conditionalPrecedence + 1) test
  | _ => 0

def callMarks : Formula → Nat
  | call _ _ => 1
  | _ => 0

theorem forced_floated (e : Formula) : forced e.floated = forced e := by
  cases e with
  | member base field => exact wraps_floated _ base
  | unary op operand => exact wraps_floated _ operand
  | binary op lhs rhs => exact congrArg₂ (· + ·) (wraps_floated _ lhs) (wraps_floated _ rhs)
  | conditional test yes no => exact wraps_floated _ test
  | _ => rfl

theorem callMarks_floated (e : Formula) : callMarks e.floated = callMarks e := by
  cases e <;> rfl

theorem wraps_operand (op : UnaryOp) (operand : Formula) :
    wraps (unaryPrecedence + 1) operand =
      wraps unaryPrecedence operand + stackedSigns (unary op operand) := by
  cases operand with
  | binary o l r =>
    have hweak : (binary o l r).precedence < unaryPrecedence := Nat.lt_succ_of_le o.precedence_le
    rw [wraps_of_lt hweak, wraps_of_lt (Nat.lt_succ_of_lt hweak)]
    rfl
  | _ => rfl

theorem Token.not_openParen_of_sign {op : UnaryOp} (h : t.sign? = some op) :
    t ≠ .openParen ∧ t.isName = false := by
  cases t with
  | name | openParen => cases h
  | _ => exact ⟨nofun, rfl⟩

namespace Derives

/-- However an expression is written, every operand that has to be grouped is. -/
theorem forced_le (h : Derives c depth ts e) :
    wraps c.level e + e.total forced ≤ groupings false ts := by
  induction h with
  | number | name => exact Nat.le_refl 0
  | @call depth callee args _ ih =>
    have hargs : (args.map fun a ↦ total forced a.2).sum ≤ (args.map fun a ↦ groupings false a.1).sum :=
      List.sum_le_sum fun a ha ↦ Nat.le_trans (Nat.le_add_left _ _) (ih a ha)
    change 0 + total forced (.call callee _) ≤ 0 + (0 + groupings false (_ ++ [.closeParen]))
    rw [groupings_close, groupings_commaSeparated, total_call, List.map_map, List.map_map]
    simpa [forced, Function.comp_def] using hargs
  | @group depth ts e _ ih =>
    have hone := wraps_le_one Category.primary.level e
    change _ ≤ 1 + groupings false (ts ++ [.closeParen])
    rw [groupings_close]
    omega
  | primary _ ih => exact ih
  | @member depth ts e field _ ih =>
    rw [groupings_append .dot nofun, total_member]
    change 0 + (wraps postfixPrecedence e + total forced e) ≤ groupings false ts + 0
    rw [Nat.zero_add]
    exact ih
  | @path depth ts e _ ih =>
    have hlevel := wraps_mono (Nat.le_succ unaryPrecedence) e
    exact Nat.le_trans (Nat.add_le_add_right hlevel _) ih
  | @sign depth ts e t op ht _ ih =>
    obtain ⟨hopen, hname⟩ := Token.not_openParen_of_sign ht
    rw [total_unary, groupings, hname, if_neg (fun h ↦ hopen h.1), Nat.zero_add]
    change 0 + (wraps unaryPrecedence e + total forced e) ≤ _
    rw [Nat.zero_add]
    exact ih
  | @operand depth ts e least _ ih =>
    have hlevel := wraps_mono (Category.level_chain_le_unary least) e
    exact Nat.le_trans (Nat.add_le_add_right hlevel _) ih
  | @binary depth ts us l r least op hop _ _ ihl ihr =>
    have hlow := op.two_le_precedence
    have hhigh := op.precedence_le
    rw [Category.level_chain (by omega) (by omega)] at ihl ihr
    rw [groupings_append (.operator op) nofun, wraps_of_le (Category.level_chain_le hop), total_binary]
    simp only [forced, Token.isName]
    omega
  | @chain depth ts e _ ih =>
    have hlevel := wraps_mono (Nat.le_succ conditionalPrecedence) e
    exact Nat.le_trans (Nat.add_le_add_right hlevel _) ih
  | @conditional depth ts us vs test yes no _ _ _ iht ihy ihn =>
    rw [groupings_append .question nofun, groupings_append .colon nofun, total_conditional]
    change wraps (conditionalPrecedence + 1) test + _ ≤ _ at iht
    change 0 + (wraps _ test + _) ≤ groupings false ts + (groupings false us + groupings false vs)
    omega

theorem count_openParen (h : Derives c depth ts e) :
    ts.count .openParen = groupings false ts + e.total callMarks := by
  induction h with
  | number | name => rfl
  | @call depth callee args _ ih =>
    have hargs : (args.map fun a ↦ a.1.count .openParen).sum =
        (args.map fun a ↦ groupings false a.1 + total callMarks a.2).sum :=
      congrArg List.sum (List.map_congr_left ih)
    rw [List.sum_map_add] at hargs
    change _ = 0 + (0 + groupings false (_ ++ [.closeParen])) + _
    rw [groupings_close, groupings_commaSeparated, total_call, List.map_map, List.map_map]
    simp only [List.count_cons, List.count_append, count_commaSeparated, List.map_map,
      Function.comp_def, hargs, callMarks]
    simp
    omega
  | @group depth ts e _ ih =>
    change _ = 1 + groupings false (ts ++ [.closeParen]) + _
    rw [groupings_close]
    simp
    omega
  | primary _ ih | path _ ih | operand _ _ ih | chain _ ih => exact ih
  | @member depth ts e field _ ih =>
    rw [groupings_append .dot nofun, total_member]
    simpa [groupings, callMarks] using ih
  | @sign depth ts e t op ht _ ih =>
    obtain ⟨hopen, hname⟩ := Token.not_openParen_of_sign ht
    rw [List.count_cons_of_ne hopen, groupings, hname, if_neg (fun h ↦ hopen h.1), total_unary, ih]
    simp [callMarks]
  | @binary depth ts us l r least op hop _ _ ihl ihr =>
    have hop : Token.operator op ≠ .openParen := nofun
    rw [groupings_append _ hop, total_binary, List.count_append, List.count_cons_of_ne hop, ihl, ihr]
    simp only [callMarks, Token.isName]
    omega
  | @conditional depth ts us vs test yes no _ _ _ iht ihy ihn =>
    have hquestion : Token.question ≠ .openParen := nofun
    have hcolon : Token.colon ≠ .openParen := nofun
    rw [groupings_append _ hquestion, groupings_append _ hcolon, total_conditional,
      List.count_append, List.count_cons_of_ne hquestion, List.count_append,
      List.count_cons_of_ne hcolon, iht, ihy, ihn]
    simp only [callMarks, Token.isName]
    omega

end Derives

theorem count_eq_zero_of_all {p : Char → Bool} (h : ∀ d ∈ cs, p d) (hp : p '(' = false) :
    cs.count '(' = 0 := by
  rw [List.count_eq_zero]
  intro hmem
  rw [h _ hmem] at hp
  cases hp

theorem Exponent.count_openParen {kept : List Char} (h : Exponent written kept rest) :
    written.count '(' = 0 := by
  cases h with
  | none => rfl
  | @some mark sign ds _ hmark hsign _ hds _ =>
    have hsign : sign = [] ∨ sign = ['+'] ∨ sign = ['-'] := by simpa using hsign
    have hdigits := count_eq_zero_of_all hds rfl
    rcases hmark with rfl | rfl <;> rcases hsign with rfl | rfl | rfl <;> simpa using hdigits

theorem Numeral.count_openParen {kept : List Char} (h : Numeral written kept rest) :
    written.count '(' = 0 := by
  obtain ⟨hnumeric, -, -, -, hexponent, hsuffix⟩ := h
  rw [List.count_append, List.count_append, count_eq_zero_of_all hnumeric rfl,
    hexponent.count_openParen]
  rcases hsuffix with ⟨rfl, -⟩ | ⟨c, rfl, hc⟩
  · rfl
  · have hsuffix := count_eq_zero_of_all (p := isSuffix) (List.forall_mem_singleton.2 hc) rfl
    omega

theorem Reads.count_openParen (h : Reads written t rest) :
    written.count '(' = if t = .openParen then 1 else 0 := by
  cases h with
  | name _ hword _ => exact count_eq_zero_of_all hword rfl
  | number hn => exact hn.count_openParen
  | mark hm _ =>
    cases t with
    | name | number => cases hm
    | operator op => cases op <;> rfl
    | _ => rfl

theorem Spells.count_openParen (h : Spells cs ts) : cs.count '(' = ts.count .openParen := by
  induction h with
  | nil => rfl
  | @blank c cs ts hc _ ih =>
    have hne : c ≠ '(' := by
      rintro rfl
      cases hc
    rw [List.count_cons_of_ne hne, ih]
  | token hr _ ih =>
    rw [List.count_append, hr.count_openParen, ih, List.count_cons, Nat.add_comm]
    simp

theorem count_wrapped (least : Nat) (e : Formula) (text : String) :
    (if e.precedence < least then parenthesize text else text).toList.count '(' =
      wraps least e + text.toList.count '(' := by
  unfold wraps
  split
  · simp [parenthesize]
    omega
  · exact (Nat.zero_add _).symm

theorem count_renderAll (args : List Formula) :
    (renderAll args).toList.count '(' = (args.map fun a ↦ (render 0 a).toList.count '(').sum := by
  induction args with
  | nil => rfl
  | cons a args ih =>
    cases args with
    | nil => simp [renderAll]
    | cons b args =>
      rw [List.map_cons, List.sum_cons, ← ih]
      simp [renderAll]

/-- What the printer groups: what it has to, and signs under signs. -/
theorem count_render (h : Spliced (fun _ ↦ False) e) (least : Nat) :
    (render least e).toList.count '(' =
      wraps least e + (e.total forced + e.total stackedSigns + e.total callMarks) := by
  induction e generalizing least with
  | number n =>
    refine (count_wrapped least (number n) _).trans ?_
    have hn := (h.words _ List.mem_cons_self).spells_number.count_openParen
    rw [hn]
    rfl
  | name x =>
    refine (count_wrapped least (name x) _).trans ?_
    have hx := (h.words _ List.mem_cons_self).spells_name.count_openParen
    rw [hx]
    rfl
  | spliced text => exact (h.spliced text (self_mem_parts _)).elim
  | call callee args ih =>
    refine (count_wrapped least (call callee args) _).trans ?_
    have hcallee := (h.words _ List.mem_cons_self).spells_name.count_openParen
    have hargs : (args.map fun a ↦ (render 0 a).toList.count '(').sum =
        (args.map fun a ↦ total forced a + total stackedSigns a + total callMarks a).sum := by
      refine congrArg List.sum (List.map_congr_left fun a ha ↦ ?_)
      rw [ih a ha (h.part (.tail _ (mem_partsAll.2 ⟨a, ha, self_mem_parts a⟩))) 0,
        wraps_of_le (Nat.zero_le _), Nat.zero_add]
    rw [List.sum_map_add, List.sum_map_add] at hargs
    simp only [parenthesize, String.toList_append, List.count_append, hcallee, count_renderAll, hargs,
      total_call, forced, stackedSigns, callMarks]
    simp
    omega
  | member base field ih =>
    refine (count_wrapped least (member base field) _).trans ?_
    have hfield : (Token.name field).Lexable := h.words _ (by simp [Formula.words])
    have hbase := ih (h.part (.tail _ (self_mem_parts base))) postfixPrecedence
    simp only [String.toList_append, List.count_append, hbase, hfield.spells_name.count_openParen]
    simp [forced, stackedSigns, callMarks]
    omega
  | unary op operand ih =>
    refine (count_wrapped least (unary op operand) _).trans ?_
    have hoperand := ih (h.part (.tail _ (self_mem_parts operand))) (unaryPrecedence + 1)
    have hop : op.text.toList.count '(' = 0 := by cases op <;> rfl
    simp only [String.toList_append, List.count_append, hoperand, hop, wraps_operand op, total_unary,
      forced, callMarks]
    omega
  | binary op lhs rhs ihl ihr =>
    refine (count_wrapped least (binary op lhs rhs) _).trans ?_
    have hlhs := ihl (h.part (by simp [parts, self_mem_parts])) op.precedence
    have hrhs := ihr (h.part (by simp [parts, self_mem_parts])) (op.precedence + 1)
    have hop : op.text.toList.count '(' = 0 := by cases op <;> rfl
    simp only [String.toList_append, List.count_append, hlhs, hrhs, hop, total_binary, forced,
      stackedSigns, callMarks]
    simp
    omega
  | conditional test yes no iht ihy ihn =>
    refine (count_wrapped least (conditional test yes no) _).trans ?_
    have htest := iht (h.part (by simp [parts, self_mem_parts])) (conditionalPrecedence + 1)
    have hyes := ihy (h.part (by simp [parts, self_mem_parts])) conditionalPrecedence
    have hno := ihn (h.part (by simp [parts, self_mem_parts])) conditionalPrecedence
    have hbare : ∀ e : Formula, wraps conditionalPrecedence e = 0 := fun e ↦
      wraps_of_le e.precedence_pos
    rw [hbare] at hyes hno
    simp only [String.toList_append, List.count_append, htest, hyes, hno, total_conditional, forced,
      stackedSigns, callMarks]
    simp
    omega

theorem groupings_print (h : Spliced (fun _ ↦ False) e) (hs : Spells e.print.toList ts)
    (hd : Derives c depth ts e.floated) :
    groupings false ts = e.total forced + e.total stackedSigns := by
  have htext := count_render h 0
  rw [wraps_of_le (Nat.zero_le _), Nat.zero_add] at htext
  have htokens := hd.count_openParen
  rw [total_floated callMarks_floated, ← hs.count_openParen] at htokens
  have hprint : e.print = render 0 e := rfl
  rw [hprint] at htokens
  omega

/-- However an expression is written, it is written with at least as many groups as it is printed
with, those around signs under signs apart. -/
theorem print_groupings {stop : Nat} {ls : List Lexeme} {e' : Formula}
    (hspliced : ∀ text, spliced text ∉ e.parts) (hwords : ∀ t ∈ e.words, t.Lexable)
    (hmember : ∀ n field, member (number n) field ∉ e.parts)
    (hread : ofLexemes stop ls = .ok e') (hfloated : e'.floated = e.floated) :
    ∃ printed, lexemes e.print = .ok printed ∧
      groupings false (printed.map (·.token)) ≤
        groupings false (ls.map (·.token)) + e.total stackedSigns := by
  obtain ⟨ts, hs, hd, -⟩ := (printable_of_parts hspliced hwords hmember).shows 0
  obtain ⟨printed, hlexemes, rfl⟩ := hs.lexemes
  refine ⟨printed, hlexemes, ?_⟩
  have hplain : Spliced (fun _ ↦ False) e := ⟨hwords, hspliced⟩
  have hprinted := groupings_print hplain hs hd
  have hsource := (derives_of_ofLexemes hread).forced_le
  have hsame : e'.total forced = e.total forced := by
    rw [← total_floated forced_floated e', hfloated, total_floated forced_floated]
  omega

def Sample.grouped (n : String) : Formula :=
  .binary .sub (.name "a") (.binary .sub (.name "b") (.unary .minus (.unary .not (.number n))))

theorem print_groupings_tight :
    (Sample.grouped "2").print = "a - (b - -(!2.0))" ∧
      ∃ ls printed, lexemes "a-(b- -!2.0)" = .ok ls ∧ ofLexemes 13 ls = .ok (Sample.grouped "2.0") ∧
        lexemes (Sample.grouped "2").print = .ok printed ∧
        groupings false (printed.map (·.token)) ≤ groupings false (ls.map (·.token)) + 1 := by
  have hs : parse "a-(b- -!2)" = .ok (Sample.grouped "2") := rfl
  have hs' : parse "a-(b- -!2.0)" = .ok (Sample.grouped "2.0") := rfl
  obtain ⟨ls, hls, hread⟩ := bind_eq_ok.1 hs'
  have hmember : ∀ n field, member (number n) field ∉ (Sample.grouped "2").parts := by
    simp [Sample.grouped, parts]
  obtain ⟨printed, hprinted, hle⟩ := print_groupings (not_spliced_of_parse hs)
    (fun t ↦ lexable_of_parse hs) hmember hread rfl
  exact ⟨rfl, ls, printed, hls, hread, hprinted, hle⟩

end NodeShader.Formula

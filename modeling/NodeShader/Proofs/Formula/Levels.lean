import NodeShader.Proofs.Formula.Printing

namespace NodeShader

namespace Formula

variable {ts : List Token} {e tree : Formula} {text : String} {trees : String → Formula}
  {depth least least' bare : Nat} {c : Category}

/-- The levels that the text of an expression takes where only operators binding at least as tightly
as `least` stand without parentheses, from the levels that it takes where it stands bare. A whole
expression takes one level more, of which a choice already is one. -/
def enclosed (least : Nat) (e : Formula) (bare : Nat) : Nat :=
  if conditionalPrecedence < least ∧ least ≤ e.precedence then bare
  else if e.precedence = conditionalPrecedence then bare else bare + 1

mutual

/-- The signs and whole expressions inside each other in the text of an expression that stands bare;
`depth` of them in a text that is spliced in. -/
def levels (depth : Nat) : Formula → Nat
  | number _ | name _ => 0
  | spliced _ => depth
  | call _ args => levelsAll depth args
  | member base _ => enclosed postfixPrecedence base (levels depth base)
  | unary _ operand => enclosed (unaryPrecedence + 1) operand (levels depth operand) + 1
  | binary op lhs rhs =>
    max (enclosed op.precedence lhs (levels depth lhs))
      (enclosed (op.precedence + 1) rhs (levels depth rhs))
  | conditional test yes no =>
    max (enclosed (conditionalPrecedence + 1) test (levels depth test))
      (max (enclosed conditionalPrecedence yes (levels depth yes))
        (enclosed conditionalPrecedence no (levels depth no))) + 1

def levelsAll (depth : Nat) : List Formula → Nat
  | [] => 0
  | e :: es => max (enclosed 0 e (levels depth e)) (levelsAll depth es)

end

theorem enclosed_le (least : Nat) (e : Formula) (bare : Nat) : enclosed least e bare ≤ bare + 1 := by
  unfold enclosed
  split
  · omega
  · split <;> omega

theorem le_enclosed (least : Nat) (e : Formula) (bare : Nat) : bare ≤ enclosed least e bare := by
  unfold enclosed
  split
  · omega
  · split <;> omega

theorem enclosed_of_le (h : 2 ≤ least) (h' : least ≤ e.precedence) : enclosed least e bare = bare :=
  if_pos ⟨h, h'⟩

theorem le_levelsAll {args : List Formula} {a : Formula} (ha : a ∈ args) :
    enclosed 0 a (levels depth a) ≤ levelsAll depth args := by
  induction args with
  | nil => cases ha
  | cons b args ih => grind [levelsAll]

/-- The levels of a whole expression are enough for it in parentheses and without. -/
theorem Derives.whole_enclosed (h : Derives (.ofLevel e.precedence) depth ts tree)
    (hleast : least ≤ 1 ∨ e.precedence < least) : Derives .whole (enclosed least e depth) ts tree := by
  have hwhole : ¬ (conditionalPrecedence < least ∧ least ≤ e.precedence) := by
    simp only [conditionalPrecedence]
    omega
  rw [enclosed, if_neg hwhole]
  split
  · rename_i hchoice
    rwa [hchoice] at h
  · exact h.whole_of_level

/-- Printing at a level from the text without parentheses. -/
theorem Shows.atLevel {c : Category} (h : Shows c depth text e tree) (hc : .ofLevel e.precedence = c)
    (least : Nat) :
    Shows (.ofLevel least) (enclosed least e depth)
      (if e.precedence < least then parenthesize text else text) e tree := by
  subst hc
  obtain ⟨ts, hs, hd, hnumeral⟩ := h
  have hpos := e.precedence_pos
  split
  · rename_i hwrapped
    have hpath : Derives (.ofLevel (least + 9)) (enclosed least e depth)
        (.openParen :: (ts ++ [.closeParen])) tree :=
      Category.ofLevel_path (Nat.le_add_left 9 least) ▸
        (hd.whole_enclosed (.inr hwrapped)).group.primary
    exact ⟨_, hs.parenthesize, hpath.ofLevel_mono (by omega) (Nat.le_add_right least 9), nofun⟩
  · refine ⟨ts, hs, ?_, hnumeral⟩
    rcases Nat.lt_or_ge least 2 with hwhole | hleast
    · rw [Category.ofLevel_whole (by omega)]
      exact hd.whole_enclosed (.inl (by omega))
    · rw [enclosed_of_le hleast (by omega)]
      exact hd.ofLevel_mono hleast (by omega)

/-- A field of a number with an exponent, which ends before the dot. -/
theorem shows_exponent_member {n field : String} (depth : Nat) (hn : (Token.number n).Lexable)
    (he : 'e' ∈ n.toList) (hfield : (Token.name field).Lexable) :
    Shows .path depth (floatText n ++ "." ++ field) (member (number n) field)
      (member (number (floatText n)) field) := by
  have hfloat : floatText n = n := if_pos (List.any_eq_true.2 ⟨'e', he, rfl⟩)
  obtain ⟨source, ls, hls, hmem⟩ := hn
  obtain ⟨written, rest, hr⟩ := (spells_of_lexemes hls).exists_reads hmem
  rw [hfloat]
  refine ⟨[.number n, .dot, .name field], ?_, (Derives.number n).primary.member field, nofun⟩
  have hdot := Spells.mark .dot rfl hfield.spells_name hfield.shuns_digit
  cases hr with
  | @number _ kept _ hnumeral =>
    rw [String.toList_ofList] at he
    have hnumber := Spells.token (.number (hnumeral.before_dot he field.toList)) hdot
    simpa using hnumber
  | mark hm _ => cases hm

/-- The leaves of the expression can be read back, and a field is taken of a number only if that
has an exponent. -/
structure Readable (depth : Nat) (trees : String → Formula) (e : Formula) : Prop where
  words : ∀ t ∈ e.words, t.Lexable
  spliced : ∀ text, .spliced text ∈ e.parts →
    ∃ ts, Spells text.toList ts ∧ Derives .whole depth ts (trees text)
  member : ∀ base field, .member base field ∈ e.parts → ∀ n, base.IsNumeral n →
    ∃ m, base = .number m ∧ 'e' ∈ m.toList

namespace Readable

theorem part {p : Formula} (h : Readable depth trees e) (hp : p ∈ e.parts) :
    Readable depth trees p where
  words t ht := h.words t (words_of_mem_parts hp ht)
  spliced text ht := h.spliced text (parts_trans hp ht)
  member base field hm := h.member base field (parts_trans hp hm)

theorem shows (h : Readable depth trees e) (least : Nat) :
    Shows (.ofLevel least) (enclosed least e (levels depth e)) (render least e) e
      (e.replace (fun n ↦ .number (floatText n)) .name trees) := by
  induction e generalizing least with
  | number n => exact (shows_number 0 (h.words _ List.mem_cons_self)).atLevel rfl least
  | name x => exact (shows_name 0 (h.words _ List.mem_cons_self)).atLevel rfl least
  | spliced text =>
    obtain ⟨ts, hs, hd⟩ := h.spliced text (self_mem_parts _)
    exact (shows_spliced hs hd).atLevel rfl least
  | call callee args ih =>
    have hargs : ∀ a ∈ args, Shows .whole (levelsAll depth args) (render 0 a) a
        (a.replace (fun n ↦ .number (floatText n)) .name trees) := fun a ha ↦
      (ih a ha (h.part (.tail _ (mem_partsAll.2 ⟨a, ha, self_mem_parts a⟩))) 0).mono (le_levelsAll ha)
    simp only [replace, replaceAll_eq_map]
    exact (shows_call (h.words _ List.mem_cons_self) hargs).atLevel rfl least
  | member base field ih =>
    have hbase := ih (h.part (.tail _ (self_mem_parts base))) postfixPrecedence
    have hfield : (Token.name field).Lexable := h.words _ (by simp [Formula.words])
    by_cases hnumeral : ∃ n, base.IsNumeral n
    · obtain ⟨n, hn⟩ := hnumeral
      obtain ⟨m, rfl, he⟩ := h.member base field (self_mem_parts _) n hn
      exact (shows_exponent_member 0 (h.words _ List.mem_cons_self) he hfield).atLevel rfl least
    · exact (shows_member hbase hfield fun n hn ↦ hnumeral ⟨n, hn⟩).atLevel rfl least
  | unary op operand ih =>
    have hoperand := ih (h.part (.tail _ (self_mem_parts operand))) (unaryPrecedence + 1)
    exact (shows_unary op hoperand).atLevel rfl least
  | binary op lhs rhs ihl ihr =>
    have hlhs := ihl (h.part (by simp [parts, self_mem_parts])) op.precedence
    have hrhs := ihr (h.part (by simp [parts, self_mem_parts])) (op.precedence + 1)
    have hlevel := op.two_le_precedence
    have hlevel' := op.precedence_le
    rw [Category.ofLevel_chain (by omega) (by omega)] at hlhs hrhs
    have hbinary := shows_binary op (hlhs.mono (Nat.le_max_left _ _)) (hrhs.mono (Nat.le_max_right _ _))
    exact hbinary.atLevel (Category.ofLevel_chain hlevel (Nat.le_succ_of_le hlevel')) least
  | conditional test yes no iht ihy ihn =>
    have htest := iht (h.part (by simp [parts, self_mem_parts])) (conditionalPrecedence + 1)
    have hyes := ihy (h.part (by simp [parts, self_mem_parts])) conditionalPrecedence
    have hno := ihn (h.part (by simp [parts, self_mem_parts])) conditionalPrecedence
    have hchoice := shows_conditional (htest.mono (Nat.le_max_left _ _))
      (hyes.mono (Nat.le_trans (Nat.le_max_left _ _) (Nat.le_max_right _ _)))
      (hno.mono (Nat.le_trans (Nat.le_max_right _ _) (Nat.le_max_right _ _)))
    exact hchoice.atLevel rfl least

end Readable

structure Printable (depth : Nat) (trees : String → Formula) (e : Formula) : Prop where
  words : ∀ t ∈ e.words, t.Lexable
  spliced : ∀ text, .spliced text ∈ e.parts →
    ∃ ts, Spells text.toList ts ∧ Derives .whole depth ts (trees text)
  member : ∀ base field, .member base field ∈ e.parts → ∀ n, ¬ base.IsNumeral n

theorem levels_lt_height (depth : Nat) (e : Formula) : levels depth e + 1 ≤ 2 * e.height + depth := by
  induction e with
  | number | name | spliced => grind [levels, height]
  | call callee args ih =>
    have hargs : levelsAll depth args ≤ 2 * heightAll args + depth := by
      clear * - ih
      induction args with
      | nil => exact Nat.zero_le _
      | cons a args ihargs =>
        obtain ⟨ha, hargs⟩ := List.forall_mem_cons.1 ih
        have := enclosed_le 0 a (levels depth a)
        have := ihargs hargs
        grind [levelsAll, heightAll]
    grind [levels, height]
  | member base field ih | unary op operand ih => grind [levels, height, enclosed_le]
  | binary op lhs rhs ihl ihr => grind [levels, height, enclosed_le]
  | conditional test yes no iht ihy ihn => grind [levels, height, enclosed_le]

theorem Printable.shows (h : Printable depth trees e) (least : Nat) :
    Shows (.ofLevel least) (2 * e.height + depth) (render least e) e
      (e.replace (fun n ↦ .number (floatText n)) .name trees) := by
  have hreadable : Readable depth trees e :=
    ⟨h.words, h.spliced, fun base field hm n hn ↦ absurd hn (h.member base field hm n)⟩
  have hlevels := levels_lt_height depth e
  have hwhole := enclosed_le least e (levels depth e)
  exact (hreadable.shows least).mono (by omega)

/-- An operand with a sign right after a sign. It could stand bare, but the printer groups it. -/
def stackedSigns : Formula → Nat
  | unary _ (unary _ _) => 1
  | _ => 0

mutual

def stack : Formula → Nat
  | number _ | name _ | spliced _ => 0
  | call _ args => stackAll args
  | member base _ => stack base
  | unary op operand => stack operand + stackedSigns (unary op operand)
  | binary _ lhs rhs => max (stack lhs) (stack rhs)
  | conditional test yes no => max (stack test) (max (stack yes) (stack no))

def stackAll : List Formula → Nat
  | [] => 0
  | e :: es => max (stack e) (stackAll es)

end

def Category.level : Category → Nat
  | whole => conditionalPrecedence
  | chain least => min (max least (conditionalPrecedence + 1)) unaryPrecedence
  | operand => unaryPrecedence
  | path | primary => postfixPrecedence

theorem Category.level_chain (h : 2 ≤ least) (h' : least ≤ 8) : (chain least).level = least := by
  simp only [level, conditionalPrecedence, unaryPrecedence]
  omega

theorem Category.level_chain_le {op : BinaryOp} (h : least ≤ op.precedence) :
    (chain least).level ≤ op.precedence := by
  have := op.two_le_precedence
  simp only [level, conditionalPrecedence, unaryPrecedence]
  omega

theorem Category.level_chain_le_unary (least : Nat) : (chain least).level ≤ unaryPrecedence :=
  Nat.min_le_right _ _

theorem Category.le_level_chain (least : Nat) : 2 ≤ (chain least).level := by
  simp only [level, conditionalPrecedence, unaryPrecedence]
  omega

theorem enclosed_of_not (h : ¬ (conditionalPrecedence < least ∧ least ≤ e.precedence)) :
    enclosed least e bare = enclosed conditionalPrecedence e bare := by
  have hwhole : ¬ (conditionalPrecedence < conditionalPrecedence ∧
      conditionalPrecedence ≤ e.precedence) := fun h ↦ Nat.lt_irrefl _ h.1
  exact (if_neg h).trans (if_neg hwhole).symm

theorem enclosed_of_lt (h : e.precedence < least) :
    enclosed least e bare = enclosed conditionalPrecedence e bare := enclosed_of_not (by omega)

theorem enclosed_le_whole (least : Nat) (e : Formula) (bare : Nat) :
    enclosed least e bare ≤ enclosed conditionalPrecedence e bare := by
  by_cases h : conditionalPrecedence < least ∧ least ≤ e.precedence
  · rw [enclosed_of_le h.1 h.2]
    exact le_enclosed _ e bare
  · rw [enclosed_of_not h]

theorem enclosed_mono (h : 2 ≤ least) (h' : least ≤ least') (e : Formula) (bare : Nat) :
    enclosed least e bare ≤ enclosed least' e bare := by
  rcases Nat.lt_or_ge e.precedence least with hlt | hle
  · rw [enclosed_of_lt hlt, enclosed_of_lt (Nat.lt_of_lt_of_le hlt h')]
  · rw [enclosed_of_le h hle]
    exact le_enclosed least' e bare

theorem enclosed_operand (op : UnaryOp) (operand : Formula) (bare : Nat) :
    enclosed (unaryPrecedence + 1) operand bare ≤
      enclosed unaryPrecedence operand bare + stackedSigns (unary op operand) := by
  cases operand with
  | binary o l r =>
    have hweak : (binary o l r).precedence < unaryPrecedence := Nat.lt_succ_of_le o.precedence_le
    rw [enclosed_of_lt hweak, enclosed_of_lt (Nat.lt_succ_of_lt hweak)]
    exact Nat.le_refl _
  | _ => exact Nat.le_refl _

/-- However an expression is written, its printed text nests no deeper but for the signs right under
signs. -/
theorem Derives.levels_le (h : Derives c depth ts e) :
    enclosed c.level e (levels 0 e) ≤ depth + e.stack := by
  induction h with
  | number | name => exact Nat.zero_le _
  | @call depth callee args _ ih =>
    have hargs : levelsAll 0 (args.map (·.2)) ≤ depth + stackAll (args.map (·.2)) := by
      clear * - ih
      induction args with
      | nil => exact Nat.zero_le _
      | cons a args ihargs =>
        obtain ⟨ha, hargs⟩ := List.forall_mem_cons.1 ih
        have hwhole : enclosed 0 a.2 (levels 0 a.2) ≤ depth + a.2.stack :=
          Nat.le_trans (enclosed_le_whole 0 _ _) ha
        have := ihargs hargs
        grind [levelsAll, stackAll]
    exact hargs
  | @group depth ts e _ ih => exact Nat.le_trans (enclosed_le_whole _ _ _) ih
  | primary _ ih => exact ih
  | member field _ ih => exact ih
  | path _ ih => exact Nat.le_trans (enclosed_mono (by decide) (Nat.le_succ _) _ _) ih
  | @sign depth ts e t op ht _ ih =>
    have hoperand := enclosed_operand op e (levels 0 e)
    change enclosed (unaryPrecedence + 1) e (levels 0 e) + 1 ≤
      depth + 1 + (e.stack + stackedSigns (unary op e))
    change enclosed unaryPrecedence e (levels 0 e) ≤ depth + e.stack at ih
    omega
  | operand least _ ih =>
    have hlevel := Category.le_level_chain least
    exact Nat.le_trans (enclosed_mono hlevel (Category.level_chain_le_unary least) _ _) ih
  | @binary depth ts us l r least op hop _ _ ihl ihr =>
    have hlow := op.two_le_precedence
    have hhigh := op.precedence_le
    rw [Category.level_chain (by omega) (by omega)] at ihl ihr
    have hbare : (Category.chain least).level ≤ (Formula.binary op l r).precedence :=
      Category.level_chain_le hop
    rw [enclosed_of_le (Category.le_level_chain least) hbare]
    simp only [levels, stack]
    omega
  | @chain depth ts e _ ih =>
    have hwhole := enclosed_le conditionalPrecedence e (levels 0 e)
    have hbare := le_enclosed (Category.chain 2).level e (levels 0 e)
    change enclosed conditionalPrecedence e (levels 0 e) ≤ _
    omega
  | @conditional depth ts us vs test yes no _ _ _ iht ihy ihn =>
    change levels 0 (.conditional test yes no) ≤ _
    simp only [levels, stack]
    change enclosed (conditionalPrecedence + 1) test _ ≤ _ at iht
    change enclosed conditionalPrecedence yes _ ≤ _ at ihy
    change enclosed conditionalPrecedence no _ ≤ _ at ihn
    omega

end Formula

end NodeShader

import NodeShader.Proofs.Formula.Derivation
import NodeShader.Proofs.Formula.Tree

namespace NodeShader

theorem BinaryOp.two_le_precedence (op : BinaryOp) : 2 ≤ op.precedence := by
  cases op <;> decide

namespace Formula

variable {t : Token} {ts us : List Token} {cs xs ys : List Char} {c : Char} {e : Formula}
  {text : String} {depth least : Nat}

def isSeparator (c : Char) : Bool := c == ' ' || c == ')' || c == ','

theorem Token.absorbs_separator (t : Token) (hc : isSeparator c) : t.absorbs c = false := by
  have hc : (c = ' ' ∨ c = ')') ∨ c = ',' := by simpa [isSeparator] using hc
  rcases hc with (rfl | rfl) | rfl <;> cases t with
  | operator op => cases op <;> rfl
  | _ => rfl

theorem Spells.append_separator (h : Spells xs ts) (hc : isSeparator c) (hys : Spells (c :: ys) us) :
    Spells (xs ++ c :: ys) (ts ++ us) :=
  h.append (fun t _ ↦ shuns_cons.2 (t.absorbs_separator hc)) hys

theorem Spells.space (h : Spells cs ts) : Spells (' ' :: cs) ts := .blank rfl h

theorem Spells.mark (t : Token) (hm : t.isMark) (h : Spells cs ts) (hcs : Shuns t.absorbs cs) :
    Spells (t.text.toList ++ cs) (t :: ts) := .token (.mark hm hcs) h

theorem Spells.parenthesize (h : Spells text.toList ts) :
    Spells (Formula.parenthesize text).toList (.openParen :: (ts ++ [.closeParen])) := by
  have hclose : Spells [')'] [.closeParen] := (Reads.mark rfl .nil : Reads _ .closeParen _).spells
  have hbody := h.append_separator rfl hclose
  simp only [Formula.parenthesize, String.toList_append]
  rw [List.append_assoc]
  exact Spells.mark .openParen rfl hbody fun _ _ ↦ rfl

/-- A text starts with an equals sign only if its first token does. -/
theorem Spells.shuns_eq (h : Spells cs ts) (ht : ts.head? ≠ some (.operator .eq)) :
    Shuns (· == '=') cs := by
  cases h with
  | nil => exact .nil
  | @blank c cs ts hc _ =>
    refine shuns_cons.2 (beq_false_of_ne ?_)
    rintro rfl
    cases hc
  | @token written rest t ts hr _ =>
    obtain ⟨c, tail, rfl, -⟩ := hr.exists_cons
    refine shuns_cons.2 (beq_false_of_ne ?_)
    rintro rfl
    have hat : tokenAt ('=' :: (tail ++ rest)) = .ok (t, tail.length + 1) := hr.tokenAt
    have hmark : markAt ('=' :: (tail ++ rest)) = .ok (t, tail.length + 1) := hat
    generalize tail ++ rest = cs at hmark
    cases cs with
    | nil => cases hmark
    | cons d cs =>
      by_cases hd : d = '='
      · subst hd
        have hpair := Except.ok.inj hmark
        exact ht (congrArg some (congrArg Prod.fst hpair).symm)
      · simp [markAt, hd] at hmark

/-- The phrases that need no parentheses at a level of the printer. -/
def Category.ofLevel (least : Nat) : Category :=
  if least ≤ conditionalPrecedence then .whole
  else if least ≤ unaryPrecedence then .chain least
  else .path

theorem Category.ofLevel_whole (h : least ≤ 1) : ofLevel least = whole := if_pos h

theorem Category.ofLevel_chain (h : 2 ≤ least) (h' : least ≤ 8) : ofLevel least = chain least := by
  rw [ofLevel, if_neg (by simp only [conditionalPrecedence]; omega)]
  exact if_pos h'

theorem Category.ofLevel_path (h : 9 ≤ least) : ofLevel least = path := by
  rw [ofLevel, if_neg (by simp only [conditionalPrecedence]; omega),
    if_neg (by simp only [unaryPrecedence]; omega)]

theorem Derives.whole_of_level (h : Derives (.ofLevel least) depth ts e) :
    Derives .whole (depth + 1) ts e := by
  rcases Nat.lt_or_ge least 2 with hwhole | hchain
  · rw [Category.ofLevel_whole (by omega)] at h
    exact h.mono (Nat.le_succ _)
  rcases Nat.lt_or_ge least 9 with hchain' | hpath
  · rw [Category.ofLevel_chain hchain (by omega)] at h
    exact (h.loosen hchain).chain
  · rw [Category.ofLevel_path hpath] at h
    exact (h.path.operand 2).chain

theorem Derives.ofLevel_mono {level : Nat} (h : Derives (.ofLevel level) depth ts e)
    (hleast : 2 ≤ least) (hle : least ≤ level) : Derives (.ofLevel least) depth ts e := by
  rcases Nat.lt_or_ge level 9 with hchain | hpath
  · rw [Category.ofLevel_chain (by omega) (by omega)] at h ⊢
    exact h.loosen hle
  · rw [Category.ofLevel_path hpath] at h
    rcases Nat.lt_or_ge least 9 with hchain | hpath
    · rw [Category.ofLevel_chain hleast (by omega)]
      exact h.path.operand least
    · rwa [Category.ofLevel_path hpath]

def unaryToken : UnaryOp → Token
  | .minus => .operator .sub
  | .plus => .operator .add
  | .not => .bang

theorem unaryToken_text (op : UnaryOp) : (unaryToken op).text = op.text := by
  cases op <;> rfl

theorem sign?_unaryToken (op : UnaryOp) : (unaryToken op).sign? = some op := by
  cases op <;> rfl

def IsNumeral (n : String) (e : Formula) : Prop :=
  (∃ m, e = number m) ∨ ∃ text, e = spliced text ∧ Spells text.toList [.number n]

/-- The text is a phrase for the tree, and a single number only where a number stands. -/
def Shows (c : Category) (depth : Nat) (text : String) (e tree : Formula) : Prop :=
  ∃ ts, Spells text.toList ts ∧ Derives c depth ts tree ∧ ∀ n, ts = [.number n] → e.IsNumeral n

variable {tree : Formula} {trees : String → Formula}

theorem Shows.mono {c : Category} {depth' : Nat} (h : Shows c depth text e tree)
    (hd : depth ≤ depth') : Shows c depth' text e tree := by
  obtain ⟨ts, hs, hderives, hnumeral⟩ := h
  exact ⟨ts, hs, hderives.mono hd, hnumeral⟩

theorem precedence_pos (e : Formula) : 0 < e.precedence := by
  cases e with
  | binary op => exact Nat.le_of_succ_le op.two_le_precedence
  | _ => exact Nat.succ_pos _

theorem shows_number {n : String} (depth : Nat) (h : (Token.number n).Lexable) :
    Shows .path depth (floatText n) (number n) (number (floatText n)) :=
  ⟨_, h.spells_number, .primary (.number _), fun _ _ ↦ .inl ⟨n, rfl⟩⟩

theorem shows_name {x : String} (depth : Nat) (h : (Token.name x).Lexable) :
    Shows .path depth x (name x) (name x) :=
  ⟨_, h.spells_name, .primary (.name _), nofun⟩

/-- Of the tokens that end a path only a number would take in a dot. -/
theorem Derives.getLast?_path (h : Derives .path depth ts e) (ht : ts.getLast? = some t) :
    (∃ n, ts = [.number n]) ∨ t.absorbs '.' = false := by
  cases h with
  | primary h =>
    cases h with
    | number n => exact .inl ⟨n, rfl⟩
    | name x =>
      cases ht
      exact .inr rfl
    | call callee args _ =>
      rw [← List.cons_append, ← List.cons_append, List.getLast?_concat] at ht
      cases ht
      exact .inr rfl
    | group _ =>
      rw [← List.cons_append, List.getLast?_concat] at ht
      cases ht
      exact .inr rfl
  | member field h =>
    rw [List.getLast?_append_of_ne_nil _ (List.cons_ne_nil _ _)] at ht
    cases ht
    exact .inr rfl

theorem Token.Lexable.shuns_digit {x : String} (h : (Token.name x).Lexable) :
    Shuns Char.isDigit x.toList := by
  obtain ⟨text, ls, hls, hmem⟩ := h
  obtain ⟨written, rest, hr⟩ := (spells_of_lexemes hls).exists_reads hmem
  cases hr with
  | @name c cs _ hc _ _ =>
    rw [String.toList_ofList, shuns_cons]
    by_contra hdigit
    have := not_isNameStart_of_isDigit (c := c) (by simpa using hdigit)
    simp [this] at hc
  | mark hm _ => cases hm

theorem shows_member {base : Formula} {field : String} (h : Shows .path depth text base tree)
    (hfield : (Token.name field).Lexable) (hbase : ∀ n, ¬ base.IsNumeral n) :
    Shows .path depth (text ++ "." ++ field) (member base field) (member tree field) := by
  obtain ⟨ts, hs, hd, hnumeral⟩ := h
  refine ⟨ts ++ [.dot, .name field], ?_, hd.member field, fun n hn ↦ ?_⟩
  · have hdot := Spells.mark .dot rfl hfield.spells_name hfield.shuns_digit
    have hlast : ∀ t, ts.getLast? = some t → Shuns t.absorbs ('.' :: field.toList) := by
      intro t ht
      refine shuns_cons.2 ((hd.getLast?_path ht).resolve_left ?_)
      rintro ⟨n, hn⟩
      exact hbase n (hnumeral n hn)
    simpa using hs.append hlast hdot
  · cases ts <;> simp at hn

theorem shows_unary {operand : Formula} (op : UnaryOp) (h : Shows .path depth text operand tree) :
    Shows (.chain 8) (depth + 1) (op.text ++ text) (unary op operand) (unary op tree) := by
  obtain ⟨ts, hs, hd, -⟩ := h
  refine ⟨unaryToken op :: ts, ?_, .operand 8 (hd.path.sign (sign?_unaryToken op)), ?_⟩
  · have heq : Shuns (· == '=') text.toList := by
      refine hs.shuns_eq fun heq ↦ ?_
      obtain ⟨t, us, rfl, -, hpath⟩ := hd.exists_cons
      cases heq
      cases hpath (.inr rfl)
    have hop : Shuns (unaryToken op).absorbs text.toList := by
      cases op
      · exact fun _ _ ↦ rfl
      · exact fun _ _ ↦ rfl
      · exact heq
    rw [String.toList_append, ← unaryToken_text]
    exact Spells.mark _ (by cases op <;> rfl) hs hop
  · cases op <;> nofun

theorem shows_binary {lhs rhs l r : Formula} {left right : String} (op : BinaryOp)
    (hl : Shows (.chain op.precedence) depth left lhs l)
    (hr : Shows (.chain (op.precedence + 1)) depth right rhs r) :
    Shows (.chain op.precedence) depth (left ++ " " ++ op.text ++ " " ++ right) (binary op lhs rhs)
      (binary op l r) := by
  obtain ⟨ts, hs₁, hd₁, -⟩ := hl
  obtain ⟨us, hs₂, hd₂, -⟩ := hr
  refine ⟨ts ++ .operator op :: us, ?_, .binary op (Nat.le_refl _) hd₁ hd₂, fun n hn ↦ ?_⟩
  · have hop := Spells.mark (.operator op) rfl hs₂.space
      (shuns_cons.2 (Token.absorbs_separator _ rfl))
    have hall := hs₁.append_separator rfl hop.space
    simpa [Token.text] using hall
  · cases ts <;> simp at hn

theorem shows_conditional {test yes no a b c : Formula} {first second third : String}
    (ht : Shows (.chain 2) depth first test a) (hy : Shows .whole depth second yes b)
    (hn : Shows .whole depth third no c) :
    Shows .whole (depth + 1) (first ++ " ? " ++ second ++ " : " ++ third) (conditional test yes no)
      (conditional a b c) := by
  obtain ⟨ts, hs₁, hd₁, -⟩ := ht
  obtain ⟨us, hs₂, hd₂, -⟩ := hy
  obtain ⟨vs, hs₃, hd₃, -⟩ := hn
  refine ⟨ts ++ .question :: (us ++ .colon :: vs), ?_, .conditional hd₁ hd₂ hd₃, fun n hn ↦ ?_⟩
  · have hcolon := Spells.mark .colon rfl hs₃.space fun _ _ ↦ rfl
    have hsecond := hs₂.append_separator rfl hcolon.space
    have hquestion := Spells.mark .question rfl hsecond.space fun _ _ ↦ rfl
    have hall := hs₁.append_separator rfl hquestion.space
    simpa [Token.text] using hall
  · cases ts <;> simp at hn

theorem spells_renderAll {args : List Formula} {f : Formula → Formula}
    (h : ∀ a ∈ args, Shows .whole depth (render 0 a) a (f a)) :
    ∃ phrases : List (List Token × Formula),
      Spells (renderAll args).toList (commaSeparated (phrases.map (·.1))) ∧
        phrases.map (·.2) = args.map f ∧ ∀ p ∈ phrases, Derives .whole depth p.1 p.2 := by
  induction args with
  | nil => exact ⟨[], .nil, rfl, nofun⟩
  | cons a args ih =>
    obtain ⟨ts, hs, hd, -⟩ := h a List.mem_cons_self
    obtain ⟨phrases, hspells, htrees, hderives⟩ := ih fun b hb ↦ h b (.tail _ hb)
    refine ⟨(ts, f a) :: phrases, ?_, by simp [htrees], List.forall_mem_cons.2 ⟨hd, hderives⟩⟩
    cases args with
      | nil =>
        obtain rfl : phrases = [] := List.map_eq_nil_iff.1 htrees
        simpa [renderAll, commaSeparated] using hs
      | cons b args =>
        obtain ⟨p, phrases, rfl, -, -⟩ := List.map_eq_cons_iff.1 htrees
        have hcomma := Spells.mark .comma rfl hspells.space fun _ _ ↦ rfl
        have hall : Spells ((render 0 a).toList ++ ',' :: ' ' :: (renderAll (b :: args)).toList) _ :=
          hs.append_separator rfl hcomma
        simpa [renderAll, commaSeparated] using hall

theorem shows_call {callee : String} {args : List Formula} {f : Formula → Formula}
    (hcallee : (Token.name callee).Lexable) (h : ∀ a ∈ args, Shows .whole depth (render 0 a) a (f a)) :
    Shows .path depth (callee ++ parenthesize (renderAll args)) (call callee args)
      (call callee (args.map f)) := by
  obtain ⟨phrases, hspells, htrees, hderives⟩ := spells_renderAll h
  have hderives : Derives .path depth
      (.name callee :: .openParen :: (commaSeparated (phrases.map (·.1)) ++ [.closeParen]))
      (call callee (args.map f)) := htrees ▸ .primary (.call callee phrases hderives)
  refine ⟨_, ?_, hderives, nofun⟩
  rw [String.toList_append]
  refine hcallee.spells_name.append ?_ hspells.parenthesize
  rintro t ⟨⟩
  rw [parenthesize, String.append_assoc, String.toList_append]
  exact shuns_cons.2 rfl

def Token.isPlain : Token → Bool
  | name _ | number _ | dot => true
  | _ => false

theorem Spells.isPlain (h : Spells cs ts) (hcs : ∀ c ∈ cs, Text.isWordChar c || c == '.') :
    ∀ t ∈ ts, t.isPlain := by
  induction h with
  | nil => nofun
  | blank _ _ ih => exact ih fun c hc ↦ hcs c (.tail _ hc)
  | @token written rest t ts hr _ ih =>
    have hwritten : ∀ c ∈ written, Text.isWordChar c || c == '.' := fun c hc ↦
      hcs c (List.mem_append_left _ hc)
    rintro u (_ | ⟨_, hu⟩)
    · cases hr with
      | name => rfl
      | number => rfl
      | mark hm _ =>
        cases t with
        | name s | number s => cases hm
        | dot => rfl
        | operator op => cases op <;> exact hwritten _ List.mem_cons_self
        | _ => exact hwritten _ List.mem_cons_self
    · exact ih (fun c hc ↦ hcs c (List.mem_append_right _ hc)) u hu

/-- Without marks other than dots there is nothing but a path. -/
theorem Derives.path_of_isPlain {c : Category} (h : Derives c depth ts e)
    (hts : ∀ t ∈ ts, t.isPlain) : Derives .path depth ts e := by
  induction h with
  | number n => exact .primary (.number n)
  | name x => exact .primary (.name x)
  | call callee args _ _ => cases hts .openParen (by simp)
  | group => cases hts .openParen (by simp)
  | @sign _ _ _ t _ ht _ _ =>
    have hplain := hts t List.mem_cons_self
    cases t with
    | name | number | dot => cases ht
    | _ => cases hplain
  | binary op _ _ _ _ _ => cases hts (.operator op) (by simp)
  | conditional => cases hts .question (by simp)
  | primary _ ih | path _ ih | operand _ _ ih => exact ih hts
  | member field h ih => exact .member field h
  | chain _ ih => exact (ih hts).mono (Nat.le_succ _)

theorem shows_spliced (hs : Spells text.toList ts) (hd : Derives .whole depth ts tree) :
    Shows .path depth (if isAtomic text then text else parenthesize text) (spliced text) tree := by
  split
  · rename_i hatomic
    have hchars : ∀ c ∈ text.toList, Text.isWordChar c || c == '.' := by
      unfold isAtomic at hatomic
      split at hatomic
      · cases hatomic
      · rename_i c cs htext
        rw [htext]
        exact List.all_eq_true.1 (Bool.and_eq_true_iff.1 hatomic).2
    exact ⟨ts, hs, hd.path_of_isPlain (hs.isPlain hchars),
      fun n hn ↦ .inr ⟨text, rfl, hn ▸ hs⟩⟩
  · exact ⟨_, hs.parenthesize, .primary hd.group, nofun⟩

end Formula

end NodeShader

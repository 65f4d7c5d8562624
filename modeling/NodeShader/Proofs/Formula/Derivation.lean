import NodeShader.Proofs.Formula.Reading
import NodeShader.Proofs.Formula.Spelling
import NodeShader.Proofs.Outcome

namespace NodeShader

theorem BinaryOp.precedence_le (op : BinaryOp) : op.precedence ≤ 7 := by
  cases op <;> decide

namespace Formula

variable {stop limit depth room : Nat} {ls rest : List Lexeme} {e : Formula}

def Category.Consumes (c : Category) (depth : Nat) (ls : List Lexeme) (e : Formula)
    (rest : List Lexeme) : Prop :=
  ∃ used, ls = used ++ rest ∧ Derives c depth (used.map (·.token)) e

def Category.Sound (c : Category) (limit depth : Nat) (read : List Lexeme → Outcome) : Prop :=
  ∀ ls e rest, ls.length ≤ limit → read ls = .ok (e, rest) → c.Consumes depth ls e rest

variable {inner read signed : List Lexeme → Outcome}

theorem expect_eq_ok {t : Token} (h : expect stop t ls = .ok rest) :
    ∃ column, ls = ⟨t, column⟩ :: rest := by
  unfold expect at h
  split at h
  · rename_i l tail
    split at h
    · rename_i hl
      cases h
      exact ⟨l.column, by rw [← hl]⟩
    · cases h
  · cases h

theorem members_sound {e' : Formula} (h : members stop e ls = .ok (e', rest)) :
    ∃ used, ls = used ++ rest ∧
      ∀ ts, Derives .path depth ts e → Derives .path depth (ts ++ used.map (·.token)) e' := by
  fun_induction members stop e ls with
  | case1 e _ field _ tail ih =>
    obtain ⟨used, rfl, hused⟩ := ih h
    refine ⟨⟨.dot, _⟩ :: ⟨.name field, _⟩ :: used, rfl, fun ts hts ↦ ?_⟩
    simpa using hused _ (hts.member field)
  | case2 | case3 => cases h
  | case4 e ls =>
    cases h
    exact ⟨[], rfl, fun ts hts ↦ by simpa using hts⟩

def ConsumesAll (depth : Nat) (ls : List Lexeme) (es : List Formula) (rest : List Lexeme) : Prop :=
  ∃ (used : List Lexeme) (args : List (List Token × Formula)), ls = used ++ rest ∧
    es = args.map (·.2) ∧ args ≠ [] ∧ used.map (·.token) = commaSeparated (args.map (·.1)) ∧
    ∀ a ∈ args, Derives .whole depth a.1 a.2

theorem Category.Consumes.singleton (h : Category.whole.Consumes depth ls e rest) :
    ConsumesAll depth ls [e] rest := by
  obtain ⟨used, rfl, hused⟩ := h
  exact ⟨used, [(used.map (·.token), e)], rfl, rfl, List.cons_ne_nil _ _, rfl, by simpa using hused⟩

theorem Category.Consumes.cons {es : List Formula} {l : Lexeme} {mid : List Lexeme}
    (h : Category.whole.Consumes depth ls e (l :: mid)) (hl : l.token = .comma)
    (hes : ConsumesAll depth mid es rest) : ConsumesAll depth ls (e :: es) rest := by
  obtain ⟨used, rfl, hused⟩ := h
  obtain ⟨used', args, rfl, rfl, hne, htokens, hargs⟩ := hes
  refine ⟨used ++ l :: used', (used.map (·.token), e) :: args, by simp, rfl,
    List.cons_ne_nil _ _, ?_, List.forall_mem_cons.2 ⟨hused, hargs⟩⟩
  obtain ⟨a, args, rfl⟩ := List.exists_cons_of_ne_nil hne
  simp only [List.map_append, List.map_cons, commaSeparated, htokens, hl]

theorem arguments_sound (hinner : Category.whole.Sound limit depth inner) {budget : Nat}
    {es : List Formula} (hls : ls.length ≤ limit) (h : arguments inner budget ls = .ok (es, rest)) :
    ConsumesAll depth ls es rest := by
  induction budget generalizing ls es rest with
  | zero =>
    obtain ⟨⟨e, mid⟩, he, hret⟩ := bind_eq_ok.1 h
    cases hret
    exact (hinner ls e rest hls he).singleton
  | succ budget ih =>
    obtain ⟨⟨e, mid⟩, he, hret⟩ := bind_eq_ok.1 h
    dsimp only at hret
    have hone := hinner ls e mid hls he
    split at hret
    · rename_i column tail
      obtain ⟨⟨es', rest'⟩, hes, hret⟩ := bind_eq_ok.1 hret
      cases hret
      have htail : tail.length ≤ limit := by
        obtain ⟨used, rfl, -⟩ := hone
        simp at hls
        omega
      exact hone.cons rfl (ih htail hes)
    · cases hret
      exact hone.singleton

theorem primary_sound (hinner : Category.whole.Sound limit depth inner) :
    Category.primary.Sound limit depth (primary stop limit inner) := by
  intro ls e rest hls h
  unfold primary at h
  split at h
  · cases h
    exact ⟨[_], rfl, .number _⟩
  · cases h
    exact ⟨[_, _, _], rfl, .call _ [] nofun⟩
  · obtain ⟨⟨es, mid⟩, hes, h⟩ := bind_eq_ok.1 h
    obtain ⟨rest', hclose, hret⟩ := bind_eq_ok.1 h
    cases hret
    obtain ⟨column, rfl⟩ := expect_eq_ok hclose
    obtain ⟨used, args, rfl, rfl, -, htokens, hargs⟩ :=
      arguments_sound hinner (by simp at hls ⊢; omega) hes
    refine ⟨_ :: _ :: (used ++ [⟨.closeParen, column⟩]), by simp only [List.cons_append, List.append_assoc]; rfl, ?_⟩
    simpa [htokens] using Derives.call _ args hargs
  · cases h
    exact ⟨[_], rfl, .name _⟩
  · obtain ⟨⟨e', mid⟩, he, h⟩ := bind_eq_ok.1 h
    obtain ⟨rest', hclose, hret⟩ := bind_eq_ok.1 h
    cases hret
    obtain ⟨column, rfl⟩ := expect_eq_ok hclose
    obtain ⟨used, rfl, hused⟩ := hinner _ _ _ (by simp at hls ⊢; omega) he
    refine ⟨_ :: (used ++ [⟨.closeParen, column⟩]), by simp only [List.cons_append, List.append_assoc]; rfl, ?_⟩
    simpa using hused.group
  · cases h
  · cases h

theorem operand_sound (hinner : Category.whole.Sound limit depth inner)
    (hsigned : ∀ ls e rest, ls.length ≤ limit → signed ls = .ok (e, rest) →
      ∃ used, ls = used ++ rest ∧ ∀ t op, t.sign? = some op →
        Derives .operand depth (t :: used.map (·.token)) (.unary op e)) :
    Category.operand.Sound limit depth (operand stop limit signed inner) := by
  intro ls e rest hls h
  unfold operand at h
  split at h
  · rename_i op hop
    obtain ⟨⟨e', mid⟩, he, hret⟩ := bind_eq_ok.1 h
    cases hret
    cases ls with
    | nil => cases hop
    | cons l ls =>
      obtain ⟨used, rfl, hused⟩ := hsigned _ _ _ (Nat.le_of_succ_le hls) he
      exact ⟨l :: used, rfl, hused l.token op hop⟩
  · obtain ⟨⟨e', mid⟩, he, hmembers⟩ := bind_eq_ok.1 h
    obtain ⟨used, rfl, hused⟩ := primary_sound hinner _ _ _ hls he
    obtain ⟨used', rfl, hused'⟩ := members_sound hmembers
    exact ⟨used ++ used', by simp, by simpa using (hused' _ hused.primary).path⟩

/-- The operators that bind at least as tightly as `least` have been taken in after the tokens. -/
def Extends (depth least : Nat) (ts : List Token) (ls : List Lexeme) (e : Formula)
    (rest : List Lexeme) : Prop :=
  ∃ used, ls = used ++ rest ∧ Derives (.chain least) depth (ts ++ used.map (·.token)) e ∧
    ∀ op, nextToken rest = some (.operator op) → op.precedence < least

theorem Derives.extends {least p : Nat} {ts : List Token} (h : Derives (.chain p) depth ts e)
    (hleast : least ≤ p) (hweak : ∀ op, nextToken ls = some (.operator op) → op.precedence < least) :
    Extends depth least ts ls e ls :=
  ⟨[], rfl, by simpa using h.loosen hleast, hweak⟩

/-- The operators after an expression that a stronger chain derives. Those that come next bind no
tighter than that chain, or they would have been part of it. -/
theorem operators_sound (hread : Category.operand.Sound limit depth read) {budget least p : Nat}
    {lhs : Formula} {ts : List Token} (hbudget : ls.length ≤ budget) (hls : ls.length ≤ limit)
    (hlhs : Derives (.chain p) depth ts lhs) (hleast : least ≤ p)
    (hnext : ∀ op, nextToken ls = some (.operator op) → op.precedence ≤ p)
    (h : operators read budget least lhs ls = .ok (e, rest)) : Extends depth least ts ls e rest := by
  induction budget generalizing ls rest e lhs least p ts with
  | zero =>
    cases h
    obtain rfl : ls = [] := List.length_eq_zero_iff.1 (Nat.le_zero.1 hbudget)
    exact hlhs.extends hleast nofun
  | succ budget ih =>
    unfold operators at h
    split at h
    · rename_i op hop
      split at h
      · rename_i hweak
        cases h
        refine hlhs.extends hleast fun op' hop' ↦ ?_
        cases hop.symm.trans hop'
        exact hweak
      · rename_i hstrong
        obtain ⟨⟨first, mid⟩, hfirst, h⟩ := bind_eq_ok.1 h
        obtain ⟨⟨rhs, mid'⟩, hrhs, hmore⟩ := bind_eq_ok.1 h
        cases ls with
        | nil => cases hop
        | cons l ls =>
          have hl : l.token = .operator op := Option.some.inj hop
          have hq := hnext op hop
          simp only [List.length_cons, List.tail_cons] at hbudget hls hfirst
          obtain ⟨used₁, rfl, h₁⟩ := hread _ _ _ (by omega) hfirst
          simp only [List.length_append] at hbudget hls
          have hle := BinaryOp.precedence_le
          obtain ⟨used₂, rfl, h₂, hweak⟩ := ih (by omega) (by omega) (h₁.operand 8)
            (by have := hle op; omega) (fun op' _ ↦ by have := hle op'; omega) hrhs
          have hbinary := Derives.binary op (Nat.le_refl _) (hlhs.loosen hq) h₂
          simp only [List.length_append] at hbudget hls
          obtain ⟨used₃, rfl, h₃, hweak'⟩ := ih (by omega) (by omega) hbinary (by omega)
            (fun op' hop' ↦ by have := hweak op' hop'; omega) hmore
          refine ⟨l :: (used₁ ++ (used₂ ++ used₃)), by simp, ?_, hweak'⟩
          simpa [hl] using h₃
    · rename_i hnone
      cases h
      exact hlhs.extends hleast fun op hop ↦ absurd hop (hnone op)

theorem choice_sound (hread : Category.operand.Sound limit depth read)
    (hinner : Category.whole.Sound limit depth inner) :
    Category.whole.Sound limit (depth + 1) (choice stop limit read inner) := by
  intro ls e rest hls h
  obtain ⟨⟨first, mid⟩, hfirst, hmore⟩ := bind_eq_ok.1 h
  obtain ⟨⟨test, mid'⟩, htest, hfinish⟩ := bind_eq_ok.1 hmore
  obtain ⟨used₁, rfl, h₁⟩ := hread _ _ _ hls hfirst
  rw [List.length_append] at hls
  obtain ⟨used₂, rfl, h₂, -⟩ := operators_sound hread (by omega) (by omega) (h₁.operand 8) (by omega)
    (fun op _ ↦ by have := op.precedence_le; omega) htest
  rw [List.length_append] at hls
  dsimp only at hfinish
  split at hfinish
  · rename_i column tail
    obtain ⟨⟨yes, mid⟩, hyes, hmore⟩ := bind_eq_ok.1 hfinish
    obtain ⟨mid', hcolon, hmore⟩ := bind_eq_ok.1 hmore
    obtain ⟨⟨no, rest'⟩, hno, hret⟩ := bind_eq_ok.1 hmore
    cases hret
    obtain ⟨column', rfl⟩ := expect_eq_ok hcolon
    rw [List.length_cons] at hls
    obtain ⟨used₃, rfl, h₃⟩ := hinner _ _ _ (by omega) hyes
    simp only [List.length_append, List.length_cons] at hls
    obtain ⟨used₄, rfl, h₄⟩ := hinner _ _ _ (by omega) hno
    refine ⟨used₁ ++ (used₂ ++ ⟨.question, column⟩ :: (used₃ ++ ⟨.colon, column'⟩ :: used₄)),
      by simp, ?_⟩
    simpa using h₂.conditional h₃ h₄
  · cases hfinish
    exact ⟨used₁ ++ used₂, by simp, by simpa using h₂.chain⟩

theorem readers_sound (room : Nat) :
    Category.operand.Sound limit room (readers stop limit room).operand ∧
      Category.whole.Sound limit room (readers stop limit room).whole := by
  induction room with
  | zero => exact ⟨operand_sound nofun nofun, nofun⟩
  | succ room ih =>
    have hwhole : Category.whole.Sound limit (room + 1) (readers stop limit (room + 1)).whole :=
      choice_sound ih.1 ih.2
    refine ⟨operand_sound hwhole fun ls e rest hls h ↦ ?_, hwhole⟩
    obtain ⟨used, rfl, hused⟩ := ih.1 ls e rest hls h
    exact ⟨used, rfl, fun t op ht ↦ hused.sign ht⟩

theorem derives_of_ofLexemes (h : ofLexemes stop ls = .ok e) :
    Derives .whole maxNesting (ls.map (·.token)) e := by
  unfold ofLexemes at h
  split at h
  · cases h
  · obtain ⟨⟨e', rest⟩, he, h⟩ := bind_eq_ok.1 h
    dsimp only at h
    split at h
    · cases h
      obtain ⟨used, hused, hd⟩ := (readers_sound maxNesting).2 _ _ _ (Nat.le_refl _) he
      rw [List.append_nil] at hused
      exact hused ▸ hd
    · cases h

/-- A phrase that stands alone is read to its end, if there is room for it. -/
theorem Derives.settles (h : Derives .whole depth (ls.map (·.token)) e) (stop room : Nat) :
    Settles depth room ((readers stop ls.length room).whole ls) (.ok (e, [])) := by
  have hread : Category.whole.Yields stop ls.length room depth (ls ++ []) e [] :=
    h.accepts room ls [] rfl (by simp) ⟨⟨nofun, nofun⟩, nofun, nofun⟩
  rwa [List.append_nil] at hread

theorem Derives.ofLexemes (h : Derives .whole depth (ls.map (·.token)) e) (stop : Nat) :
    Settles depth maxNesting (ofLexemes stop ls) (.ok e) := by
  obtain ⟨t, us, hcons, -⟩ := h.exists_cons
  obtain ⟨column, ls, rfl, -⟩ := exists_lexeme_of_map hcons
  exact (h.settles stop maxNesting).bind (.of_eq rfl)

/-- No tokens have two meanings: with room for both derivations the reader would have to find
both. -/
theorem Derives.unique {depth' : Nat} {ts : List Token} {e' : Formula}
    (h : Derives .whole depth ts e) (h' : Derives .whole depth' ts e') : e = e' := by
  obtain ⟨ls, rfl⟩ : ∃ ls : List Lexeme, ls.map (·.token) = ts :=
    ⟨ts.map fun t ↦ ⟨t, 0⟩, by simp [Function.comp_def]⟩
  have hread := (h.mono (Nat.le_max_left depth depth')).settles 0 (max depth depth')
  have hread' := (h'.mono (Nat.le_max_right depth depth')).settles 0 (max depth depth')
  rcases hread with hread | ⟨hlt, -⟩
  · rcases hread' with hread' | ⟨hlt, -⟩
    · exact congrArg Prod.fst (Except.ok.inj (hread.symm.trans hread'))
    · exact absurd hlt (Nat.lt_irrefl _)
  · exact absurd hlt (Nat.lt_irrefl _)

/-- The lexemes are read as an expression just if the grammar derives it from all of their tokens
with no more signs and whole expressions inside each other than may nest. At whatever depth, it
derives no other expression from them. -/
theorem ofLexemes_eq_ok_iff_derives (stop : Nat) (ls : List Lexeme) :
    (∀ e, ofLexemes stop ls = .ok e ↔ Derives .whole maxNesting (ls.map (·.token)) e) ∧
      ∀ depth depth' e e', Derives .whole depth (ls.map (·.token)) e →
        Derives .whole depth' (ls.map (·.token)) e' → e = e' := by
  constructor
  · intro e
    constructor
    · exact derives_of_ofLexemes
    · intro h
      rcases h.ofLexemes stop with hok | ⟨hlt, -⟩
      · exact hok
      · exact absurd hlt (Nat.lt_irrefl _)
  · intro depth depth' e e' h h'
    exact h.unique h'

theorem derives_of_parse {text : String} (h : parse text = .ok e) :
    ∃ ts, Spells text.toList ts ∧ Derives .whole maxNesting ts e := by
  obtain ⟨ls, hls, h⟩ := bind_eq_ok.1 h
  exact ⟨ls.map (·.token), spells_of_lexemes hls, derives_of_ofLexemes h⟩

theorem parse_of_derives {text : String} {ts : List Token} (hs : Spells text.toList ts)
    (h : Derives .whole depth ts e) :
    parse text = .ok e ∨ maxNesting < depth ∧ ∃ column, parse text = .error ⟨.tooDeep, column⟩ := by
  obtain ⟨ls, hls, rfl⟩ := hs.lexemes
  have hparse : parse text = ofLexemes (endColumn text) ls := by
    rw [parse, hls]
    rfl
  rw [hparse]
  exact h.ofLexemes (endColumn text)

end Formula

end NodeShader

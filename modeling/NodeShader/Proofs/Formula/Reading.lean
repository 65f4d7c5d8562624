import NodeShader.Proofs.Formula.Grammar

namespace NodeShader.Formula

variable {α β : Type} {depth room stop limit : Nat}

/-- The outcome is the second one, unless the room is not enough for the depth. -/
def Settles (depth room : Nat) (x y : Except Error α) : Prop :=
  x = y ∨ room < depth ∧ ∃ column, x = .error ⟨.tooDeep, column⟩

namespace Settles

variable {x y : Except Error α}

theorem of_eq (h : x = y) : Settles depth room x y := .inl h

theorem refuse (h : room < depth) (ls : List Lexeme) :
    Settles depth room (failAt stop .tooDeep ls) y := .inr ⟨h, _, rfl⟩

theorem bind {a : α} {f : α → Except Error β} {z : Except Error β}
    (h : Settles depth room x (.ok a)) (hf : Settles depth room (f a) z) :
    Settles depth room (x >>= f) z := by
  rcases h with rfl | ⟨hlt, column, rfl⟩
  · exact hf
  · exact .inr ⟨hlt, column, rfl⟩

theorem trans {z : Except Error α} (h : Settles depth room x y) (hz : Settles depth room y z) :
    Settles depth room x z := by
  rcases h with rfl | h
  · exact hz
  · exact .inr h

theorem deepen (h : Settles depth room x y) : Settles (depth + 1) (room + 1) x y := by
  rcases h with rfl | ⟨hlt, h⟩
  · exact .inl rfl
  · exact .inr ⟨by omega, h⟩

end Settles

def EndsOperand (rest : List Lexeme) : Prop :=
  nextToken rest ≠ some .openParen ∧ nextToken rest ≠ some .dot

namespace Category

def EndsAt : Category → List Lexeme → Prop
  | primary, rest | path, rest => nextToken rest ≠ some .openParen
  | operand, rest => EndsOperand rest
  | chain least, rest => EndsOperand rest ∧
    ∀ op, nextToken rest = some (.operator op) → op.precedence ≤ least
  | whole, rest => EndsOperand rest ∧ nextToken rest ≠ some .question ∧
    ∀ op, nextToken rest ≠ some (.operator op)

variable (stop limit room : Nat)

/-- The lexemes are read as the expression and what remains. Paths and chains grow to the right, so
for them the reader is left at the point where it would take in more. -/
def Yields : Category → (depth : Nat) → List Lexeme → Formula → List Lexeme → Prop
  | primary, depth, ls, e, rest =>
    Settles depth room (Formula.primary stop limit (readers stop limit room).whole ls)
      (.ok (e, rest))
  | path, depth, ls, e, rest =>
    Settles depth room
      (Formula.primary stop limit (readers stop limit room).whole ls >>= fun r ↦
        members stop r.1 r.2)
      (members stop e rest)
  | operand, depth, ls, e, rest =>
    Settles depth room ((readers stop limit room).operand ls) (.ok (e, rest))
  | chain least, depth, ls, e, rest =>
    ∀ least' budget, least' ≤ least → ls.length ≤ budget →
      ∃ budget', rest.length ≤ budget' ∧ Settles depth room
        ((readers stop limit room).operand ls >>= fun r ↦
          operators (readers stop limit room).operand budget least' r.1 r.2)
        (operators (readers stop limit room).operand budget' least' e rest)
  | whole, depth, ls, e, rest =>
    Settles depth room ((readers stop limit room).whole ls) (.ok (e, rest))

end Category

variable {ls rest : List Lexeme} {e : Formula} {inner read : List Lexeme → Outcome}

theorem members_of_ends (h : nextToken rest ≠ some .dot) : members stop e rest = .ok (e, rest) := by
  unfold members
  split <;> simp_all [nextToken]

theorem operators_of_ends {budget least : Nat}
    (h : ∀ op, nextToken rest = some (.operator op) → op.precedence < least) :
    operators read budget least e rest = .ok (e, rest) := by
  cases budget with
  | zero => rfl
  | succ budget =>
    unfold operators
    split
    · rename_i op hop
      rw [if_pos (h op hop)]
    · rfl

theorem operators_of_next {budget least : Nat} {op : BinaryOp} {l : Lexeme}
    (hl : l.token = .operator op) (h : least ≤ op.precedence) :
    operators read (budget + 1) least e (l :: rest) =
      (read rest >>= fun r ↦ operators read budget (op.precedence + 1) r.1 r.2) >>= fun r ↦
        operators read budget least (.binary op e r.1) r.2 := by
  have hlt : ¬ op.precedence < least := by omega
  simp only [operators, nextToken, List.head?_cons, Option.map_some, hl, hlt, if_false,
    List.tail_cons]
  cases read rest <;> rfl

theorem expect_of_next {l : Lexeme} {t : Token} (h : l.token = t) :
    expect stop t (l :: rest) = .ok rest := by
  simp [expect, h]

theorem choice_eq (ls : List Lexeme) :
    choice stop limit read inner ls =
      (read ls >>= fun r ↦ operators read limit 2 r.1 r.2) >>= fun r ↦
        match r.2 with
        | ⟨.question, _⟩ :: rest => do
          let (yes, rest) ← inner rest
          let rest ← expect stop .colon rest
          let (no, rest) ← inner rest
          return (.conditional r.1 yes no, rest)
        | _ => return r := by
  unfold choice
  cases read ls with
  | error e => rfl
  | ok r =>
    obtain ⟨first, rest⟩ := r
    change (operators read limit 2 first rest >>= _) = (operators read limit 2 first rest >>= _)
    congr 1

theorem arguments_settles {depth : Nat} {args : List (List Token × Formula)} {budget : Nat}
    {l : Lexeme} (hne : args ≠ [])
    (hargs : ∀ a ∈ args, ∀ ls rest : List Lexeme, ls.map (·.token) = a.1 →
      (ls ++ rest).length ≤ limit → Category.whole.EndsAt rest →
      Settles depth room (inner (ls ++ rest)) (.ok (a.2, rest)))
    (hls : ls.map (·.token) = commaSeparated (args.map (·.1)))
    (hlimit : (ls ++ l :: rest).length ≤ limit) (hl : l.token = .closeParen)
    (hbudget : args.length ≤ budget + 1) :
    Settles depth room (arguments inner budget (ls ++ l :: rest))
      (.ok (args.map (·.2), l :: rest)) := by
  obtain ⟨t, column⟩ := l
  subst hl
  induction args generalizing ls budget with
  | nil => contradiction
  | cons a args ih =>
    have ha := hargs a List.mem_cons_self
    cases args with
    | nil =>
      have hread := ha ls (⟨.closeParen, column⟩ :: rest) hls hlimit
        ⟨⟨nofun, nofun⟩, nofun, nofun⟩
      cases budget <;> exact hread.bind (.of_eq rfl)
    | cons b args =>
      simp only [List.length_cons] at hbudget
      obtain ⟨budget, rfl⟩ : ∃ k, budget = k + 1 := ⟨budget - 1, by omega⟩
      obtain ⟨l₁, l₂, rfl, h₁, h₂⟩ := List.map_eq_append_iff.1 hls
      obtain ⟨⟨t, comma⟩, l₂, rfl, rfl, h₃⟩ := List.map_eq_cons_iff.1 h₂
      simp only [List.append_assoc, List.cons_append] at hlimit ⊢
      have hread := ha l₁ _ h₁ hlimit ⟨⟨nofun, nofun⟩, nofun, nofun⟩
      have hshort : (l₂ ++ ⟨.closeParen, column⟩ :: rest).length ≤ limit := by
        simp only [List.length_append, List.length_cons] at hlimit ⊢
        omega
      have hmore := @ih l₂ budget (List.cons_ne_nil b args)
        (fun a ha ↦ hargs a (List.mem_cons_of_mem _ ha)) h₃
        (by simpa using hbudget) hshort
      exact hread.bind (hmore.bind (.of_eq rfl))

theorem exists_lexeme_of_map {t : Token} {us : List Token} (h : ls.map (·.token) = t :: us) :
    ∃ column ls', ls = ⟨t, column⟩ :: ls' ∧ ls'.map (·.token) = us := by
  obtain ⟨⟨t, column⟩, ls, rfl, rfl, htail⟩ := List.map_eq_cons_iff.1 h
  exact ⟨column, ls, rfl, htail⟩

theorem nextToken_of_map {t : Token} {us : List Token} (h : ls.map (·.token) = t :: us)
    (rest : List Lexeme) : nextToken (ls ++ rest) = some t := by
  obtain ⟨column, ls, rfl, -⟩ := exists_lexeme_of_map h
  rfl

theorem operand_of_sign {signed : List Lexeme → Outcome} {l : Lexeme} {op : UnaryOp}
    (h : l.token.sign? = some op) :
    operand stop limit signed inner (l :: rest) =
      signed rest >>= fun r ↦ .ok (.unary op r.1, r.2) := by
  simp only [operand, nextToken, List.head?_cons, Option.map_some, Option.bind_some, h]
  rfl

theorem operand_of_path {signed : List Lexeme → Outcome}
    (h : (nextToken ls).bind Token.sign? = none) :
    operand stop limit signed inner ls =
      primary stop limit inner ls >>= fun r ↦ members stop r.1 r.2 := by
  rw [operand, h]

theorem primary_call {callee : String} {l₁ l₂ : Lexeme} (h₁ : l₁.token = .name callee)
    (h₂ : l₂.token = .openParen) (h : nextToken ls ≠ some .closeParen) :
    primary stop limit inner (l₁ :: l₂ :: ls) = do
      let (args, rest) ← arguments inner limit ls
      let rest ← expect stop .closeParen rest
      return (.call callee args, rest) := by
  obtain ⟨t₁, c₁⟩ := l₁
  obtain ⟨t₂, c₂⟩ := l₂
  subst h₁ h₂
  rw [primary]
  rintro column rest rfl
  exact h rfl

theorem primary_name {x : String} {l : Lexeme} (hl : l.token = .name x)
    (h : nextToken rest ≠ some .openParen) :
    primary stop limit inner (l :: rest) = .ok (.name x, rest) := by
  obtain ⟨t, c⟩ := l
  subst hl
  rw [primary]
  · rintro c₁ c₂ rest rfl
    exact h rfl
  · rintro c₁ rest rfl
    exact h rfl

/-- Wherever lexemes of these tokens stand, they are read as the expression, or nest too deeply for
the room. -/
def Category.Accepts (c : Category) (stop limit depth : Nat) (ts : List Token) (e : Formula) : Prop :=
  ∀ (room : Nat) (ls rest : List Lexeme), ls.map (·.token) = ts → (ls ++ rest).length ≤ limit →
    c.EndsAt rest → c.Yields stop limit room depth (ls ++ rest) e rest

namespace Category.Accepts

variable {ts us vs : List Token} {l r test yes no : Formula}

theorem number (n : String) : primary.Accepts stop limit depth [.number n] (.number n) := by
  intro room ls rest hls hlimit hrest
  obtain ⟨⟨t, column⟩, rfl, rfl⟩ := List.map_eq_singleton_iff.1 hls
  exact .of_eq rfl

theorem name (x : String) : primary.Accepts stop limit depth [.name x] (.name x) := by
  intro room ls rest hls hlimit hrest
  obtain ⟨l, rfl, hl⟩ := List.map_eq_singleton_iff.1 hls
  exact .of_eq (primary_name hl hrest)

theorem call (callee : String) {args : List (List Token × Formula)}
    (hargs : ∀ a ∈ args, whole.Accepts stop limit depth a.1 a.2)
    (hopen : args ≠ [] → ∃ t us, commaSeparated (args.map (·.1)) = t :: us ∧ t ≠ .closeParen) :
    primary.Accepts stop limit depth
      (.name callee :: .openParen :: (commaSeparated (args.map (·.1)) ++ [.closeParen]))
      (.call callee (args.map (·.2))) := by
  intro room ls rest hls hlimit hrest
  obtain ⟨c₁, ls₁, rfl, h₁⟩ := exists_lexeme_of_map hls
  obtain ⟨c₂, ls₂, rfl, h₂⟩ := exists_lexeme_of_map h₁
  obtain ⟨ls₃, l, rfl, h₃, hl⟩ := List.map_eq_append_iff.1 h₂
  obtain ⟨⟨t, c₃⟩, rfl, rfl⟩ := List.map_eq_singleton_iff.1 hl
  simp only [List.cons_append, List.append_assoc, List.nil_append] at hlimit ⊢
  by_cases hnil : args = []
  · subst hnil
    obtain rfl : ls₃ = [] := List.map_eq_nil_iff.1 h₃
    exact .of_eq rfl
  · have hnext : nextToken (ls₃ ++ ⟨.closeParen, c₃⟩ :: rest) ≠ some .closeParen := by
      obtain ⟨t, us, hts, hne⟩ := hopen hnil
      rw [nextToken_of_map (h₃.trans hts)]
      simpa using hne
    have hcount := length_le_commaSeparated (args.map (·.1))
    have hlength := congrArg List.length h₃
    simp only [List.length_map, List.length_cons, List.length_append] at hcount hlength hlimit
    have hread : Settles depth room (arguments _ limit (ls₃ ++ ⟨.closeParen, c₃⟩ :: rest)) _ :=
      arguments_settles hnil (fun a ha ↦ hargs a ha room) h₃
        (by simp only [List.length_append, List.length_cons]; omega) rfl (by omega)
    change Settles _ _ (Formula.primary _ _ _ _) _
    rw [primary_call rfl rfl hnext]
    exact hread.bind (.of_eq rfl)

theorem group (h : whole.Accepts stop limit depth ts e) :
    primary.Accepts stop limit depth (.openParen :: (ts ++ [.closeParen])) e := by
  intro room ls rest hls hlimit hrest
  obtain ⟨c₁, ls₁, rfl, h₁⟩ := exists_lexeme_of_map hls
  obtain ⟨ls₂, l, rfl, h₂, hl⟩ := List.map_eq_append_iff.1 h₁
  obtain ⟨⟨t, c₃⟩, rfl, rfl⟩ := List.map_eq_singleton_iff.1 hl
  simp only [List.cons_append, List.append_assoc, List.nil_append] at hlimit ⊢
  have hread := h room ls₂ (⟨.closeParen, c₃⟩ :: rest) h₂ (Nat.le_of_succ_le hlimit)
    ⟨⟨nofun, nofun⟩, nofun, nofun⟩
  exact Settles.bind hread (.of_eq rfl)

theorem path_of_primary (h : primary.Accepts stop limit depth ts e) :
    path.Accepts stop limit depth ts e := fun room ls rest hls hlimit hrest ↦
  (h room ls rest hls hlimit hrest).bind (.of_eq rfl)

theorem member (field : String) (h : path.Accepts stop limit depth ts e) :
    path.Accepts stop limit depth (ts ++ [.dot, .name field]) (.member e field) := by
  intro room ls rest hls hlimit hrest
  obtain ⟨ls₁, l, rfl, h₁, hl⟩ := List.map_eq_append_iff.1 hls
  obtain ⟨c₁, l₁, rfl, hl₁⟩ := exists_lexeme_of_map hl
  obtain ⟨⟨t₂, c₂⟩, rfl, rfl⟩ := List.map_eq_singleton_iff.1 hl₁
  rw [List.append_assoc] at hlimit ⊢
  exact h room ls₁ _ h₁ hlimit nofun

theorem operand_of_path {t : Token} (hsign : t.sign? = none)
    (h : path.Accepts stop limit depth (t :: ts) e) :
    operand.Accepts stop limit depth (t :: ts) e := by
  intro room ls rest hls hlimit hrest
  have hnext : (nextToken (ls ++ rest)).bind Token.sign? = none := by
    rw [nextToken_of_map hls]
    exact hsign
  have hread := (h room ls rest hls hlimit hrest.1).trans (.of_eq (members_of_ends hrest.2))
  cases room <;> exact (Settles.of_eq (Formula.operand_of_path hnext)).trans hread

theorem sign {t : Token} {op : UnaryOp} (ht : t.sign? = some op)
    (h : operand.Accepts stop limit depth ts e) :
    operand.Accepts stop limit (depth + 1) (t :: ts) (.unary op e) := by
  intro room ls rest hls hlimit hrest
  obtain ⟨c₁, ls₁, rfl, h₁⟩ := exists_lexeme_of_map hls
  rw [List.cons_append] at hlimit ⊢
  cases room with
  | zero => exact .trans (.of_eq (operand_of_sign ht)) (.inr ⟨Nat.succ_pos _, _, rfl⟩)
  | succ room =>
    have hread := Settles.deepen (h room ls₁ rest h₁ (Nat.le_of_succ_le hlimit) hrest)
    exact .trans (.of_eq (operand_of_sign ht)) (hread.bind (.of_eq rfl))

theorem chain_of_operand (least : Nat) (h : operand.Accepts stop limit depth ts e) :
    (chain least).Accepts stop limit depth ts e := by
  intro room ls rest hls hlimit hrest least' budget _ hbudget
  have hread := h room ls rest hls hlimit hrest.1
  refine ⟨budget, ?_, hread.bind (.of_eq rfl)⟩
  rw [List.length_append] at hbudget
  omega

theorem binary {op : BinaryOp} {least : Nat} (hop : least ≤ op.precedence)
    (hl : (chain op.precedence).Accepts stop limit depth ts l)
    (hr : (chain (op.precedence + 1)).Accepts stop limit depth us r) :
    (chain least).Accepts stop limit depth (ts ++ .operator op :: us) (.binary op l r) := by
  intro room ls rest hls hlimit hrest least' budget hleast hbudget
  obtain ⟨ls₁, l, rfl, h₁, hop⟩ := List.map_eq_append_iff.1 hls
  obtain ⟨c₁, ls₂, rfl, h₂⟩ := exists_lexeme_of_map hop
  simp only [List.cons_append, List.append_assoc] at hlimit hbudget ⊢
  have hshort : (ls₂ ++ rest).length ≤ limit := by
    simp only [List.length_append, List.length_cons] at hlimit ⊢
    omega
  have hends : (chain op.precedence).EndsAt (⟨.operator op, c₁⟩ :: (ls₂ ++ rest)) :=
    ⟨⟨nofun, nofun⟩, by rintro _ ⟨⟩; exact Nat.le_refl _⟩
  obtain ⟨budget₁, hb₁, hleft⟩ := hl room ls₁ _ h₁ hlimit hends least' budget (by omega) hbudget
  obtain ⟨b, rfl⟩ : ∃ b, budget₁ = b + 1 :=
    ⟨budget₁ - 1, by rw [List.length_cons] at hb₁; omega⟩
  have hb : (ls₂ ++ rest).length ≤ b := Nat.le_of_succ_le_succ hb₁
  have hweak : ∀ o, nextToken rest = some (.operator o) → o.precedence < op.precedence + 1 := by
    intro o ho
    have := hrest.2 o ho
    omega
  rw [operators_of_next rfl (by omega)] at hleft
  obtain ⟨budget₂, -, hright⟩ := hr room ls₂ rest h₂ hshort
    ⟨hrest.1, fun o ho ↦ Nat.le_of_lt (hweak o ho)⟩ _ b (Nat.le_refl _) hb
  rw [operators_of_ends hweak] at hright
  refine ⟨b, ?_, hleft.trans (hright.bind (.of_eq rfl))⟩
  rw [List.length_append] at hb
  omega

/-- The first part of a whole expression, which a question mark may follow. -/
theorem choice_settles {x : Outcome} (h : (chain 2).Accepts stop limit depth ts test)
    (hls : ls.map (·.token) = ts) (hlimit : (ls ++ rest).length ≤ limit) (hrest : EndsOperand rest)
    (hop : ∀ op, nextToken rest ≠ some (.operator op))
    (hx : Settles depth room
      (match rest with
        | ⟨.question, _⟩ :: rest => do
          let (yes, rest) ← (readers stop limit room).whole rest
          let rest ← expect stop .colon rest
          let (no, rest) ← (readers stop limit room).whole rest
          return (.conditional test yes no, rest)
        | _ => return (test, rest)) x) :
    Settles (depth + 1) (room + 1) ((readers stop limit (room + 1)).whole (ls ++ rest)) x := by
  obtain ⟨budget, -, hread⟩ := h room ls rest hls hlimit ⟨hrest, fun o ho ↦ absurd ho (hop o)⟩
    2 limit (Nat.le_refl _) hlimit
  rw [operators_of_ends fun o ho ↦ absurd ho (hop o)] at hread
  refine Settles.deepen ?_
  change Settles _ _ (choice ..) _
  rw [choice_eq]
  exact hread.bind hx

theorem whole_of_chain (h : (chain 2).Accepts stop limit depth ts e) :
    whole.Accepts stop limit (depth + 1) ts e := by
  intro room ls rest hls hlimit hrest
  cases room with
  | zero => exact .refuse (Nat.succ_pos _) _
  | succ room =>
    refine h.choice_settles hls hlimit hrest.1 hrest.2.2 (.of_eq ?_)
    split
    · exact absurd rfl hrest.2.1
    · rfl

theorem conditional (ht : (chain 2).Accepts stop limit depth ts test)
    (hy : whole.Accepts stop limit depth us yes) (hn : whole.Accepts stop limit depth vs no) :
    whole.Accepts stop limit (depth + 1) (ts ++ .question :: (us ++ .colon :: vs))
      (.conditional test yes no) := by
  intro room ls rest hls hlimit hrest
  cases room with
  | zero => exact .refuse (Nat.succ_pos _) _
  | succ room =>
    obtain ⟨ls₁, l, rfl, h₁, hl⟩ := List.map_eq_append_iff.1 hls
    obtain ⟨c₁, l₁, rfl, hl₁⟩ := exists_lexeme_of_map hl
    obtain ⟨ls₂, l₂, rfl, h₂, hl₂⟩ := List.map_eq_append_iff.1 hl₁
    obtain ⟨c₂, ls₃, rfl, h₃⟩ := exists_lexeme_of_map hl₂
    simp only [List.cons_append, List.append_assoc] at hlimit ⊢
    refine ht.choice_settles h₁ hlimit ⟨nofun, nofun⟩ nofun ?_
    simp only [List.length_append, List.length_cons] at hlimit
    have hyes := hy room ls₂ (⟨.colon, c₂⟩ :: (ls₃ ++ rest)) h₂
      (by simp only [List.length_append, List.length_cons]; omega) ⟨⟨nofun, nofun⟩, nofun, nofun⟩
    have hno := hn room ls₃ rest h₃ (by simp only [List.length_append]; omega) hrest
    exact Settles.bind hyes (.bind (.of_eq (expect_of_next rfl)) (Settles.bind hno (.of_eq rfl)))

end Category.Accepts

theorem Derives.accepts {c : Category} {ts : List Token} (h : Derives c depth ts e) :
    c.Accepts stop limit depth ts e := by
  induction h with
  | number n => exact .number n
  | name x => exact .name x
  | call callee args hargs ih =>
    refine .call callee ih fun hne ↦ ?_
    obtain ⟨a, args, rfl⟩ := List.exists_cons_of_ne_nil hne
    obtain ⟨t, us, hts, ht, -⟩ := (hargs a List.mem_cons_self).exists_cons
    have hclose : t ≠ .closeParen := by
      rintro rfl
      rcases ht with ht | ht <;> cases ht
    cases args with
    | nil => exact ⟨t, us, hts, hclose⟩
    | cons b args => exact ⟨t, us ++ _, congrArg (· ++ _) hts, hclose⟩
  | group _ ih => exact .group ih
  | primary _ ih => exact .path_of_primary ih
  | member field _ ih => exact .member field ih
  | path h ih =>
    obtain ⟨t, us, rfl, -, hpath⟩ := h.exists_cons
    exact .operand_of_path (Token.sign?_of_startsPath (hpath (.inr rfl))) ih
  | sign ht _ ih => exact .sign ht ih
  | operand least _ ih => exact .chain_of_operand least ih
  | binary op hop _ _ ihl ihr => exact .binary hop ihl ihr
  | chain _ ih => exact .whole_of_chain ih
  | conditional _ _ _ iht ihy ihn => exact .conditional iht ihy ihn

end NodeShader.Formula

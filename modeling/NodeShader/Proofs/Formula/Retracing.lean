import NodeShader.Proofs.Formula.Derivation

namespace NodeShader.Formula

variable {α β : Type} {stop stop' limit limit' depth room : Nat} {t : Token} {ts us : List Token}
  {ls rest : List Lexeme} {e : Formula} {V W : List Token → Prop}

def Category.Viable (c : Category) (depth : Nat) (ts : List Token) : Prop :=
  ∃ more e, Derives c depth (ts ++ more) e

structure Twin (limit : Nat) (used rest used' rest' : List Lexeme) : Prop where
  tokens : used'.map (·.token) = used.map (·.token)
  next : nextToken rest' = nextToken rest
  length : (used' ++ rest').length ≤ limit

theorem nextToken_append {used used' rest' : List Lexeme}
    (h : used'.map (·.token) = used.map (·.token)) (hrest : nextToken rest' = nextToken rest) :
    nextToken (used' ++ rest') = nextToken (used ++ rest) := by
  cases used with
  | nil =>
    obtain rfl : used' = [] := List.map_eq_nil_iff.1 h
    exact hrest
  | cons l used =>
    obtain ⟨column, used', rfl, -⟩ := exists_lexeme_of_map h
    rfl

theorem Twin.split {used₁ used₂ used' rest' : List Lexeme}
    (h : Twin limit (used₁ ++ used₂) rest used' rest') :
    ∃ used₁' used₂', used' = used₁' ++ used₂' ∧
      Twin limit used₁ (used₂ ++ rest) used₁' (used₂' ++ rest') ∧
      Twin (limit - used₁.length) used₂ rest used₂' rest' := by
  have htokens := h.tokens
  rw [List.map_append] at htokens
  obtain ⟨used₁', used₂', rfl, h₁, h₂⟩ := List.map_eq_append_iff.1 htokens
  have hlength := h.length
  have hsame : used₁'.length = used₁.length := by simpa using congrArg List.length h₁
  refine ⟨used₁', used₂', rfl, ⟨h₁, nextToken_append h₂ h.next, ?_⟩, ⟨h₂, h.next, ?_⟩⟩
  · rwa [List.append_assoc] at hlength
  · simp only [List.length_append] at hlength ⊢
    omega

/-- How far an outcome goes into the lexemes. What has been read is read in the same way wherever the
same tokens stand, the next one included. Where the reader failed, the part before that point is
viable, and it fails wherever the same tokens stand. -/
def Retraces (stop limit : Nat) (V : List Token → Prop)
    (f : List Lexeme → Except Error (α × List Lexeme)) (ls : List Lexeme) :
    Except Error (α × List Lexeme) → Prop
  | .ok r => ∃ used, ls = used ++ r.2 ∧
      ∀ used' rest', Twin limit used r.2 used' rest' → f (used' ++ rest') = .ok (r.1, rest')
  | .error err => err.cause = .tooDeep ∨ ∃ used rest, ls = used ++ rest ∧
      err.column = columnOf stop rest ∧ V (used.map (·.token)) ∧
      ∀ used' rest', Twin limit used rest used' rest' → ∃ err', f (used' ++ rest') = .error err'

namespace Retraces

variable {f g : List Lexeme → Except Error (α × List Lexeme)} {x : Except Error (α × List Lexeme)}

theorem done {a : α} (h : ∀ ls', nextToken ls' = nextToken ls → f ls' = .ok (a, ls')) :
    Retraces stop limit V f ls (.ok (a, ls)) := by
  refine ⟨[], rfl, fun used' rest' htwin ↦ ?_⟩
  obtain rfl : used' = [] := List.map_eq_nil_iff.1 htwin.tokens
  exact h rest' htwin.next

theorem failed {cause : Cause} (used rest : List Lexeme) (hV : V (used.map (·.token)))
    (h : ∀ used' rest', used'.map (·.token) = used.map (·.token) →
      nextToken rest' = nextToken rest → ∃ err', f (used' ++ rest') = .error err') :
    Retraces stop limit V f (used ++ rest) (.error ⟨cause, columnOf stop rest⟩) :=
  .inr ⟨used, rest, rfl, rfl, hV, fun used' rest' htwin ↦ h used' rest' htwin.tokens htwin.next⟩

theorem imp (h : Retraces stop limit V f ls x) (hlimit : limit' ≤ limit) (hV : ∀ ts, V ts → W ts) :
    Retraces stop limit' W f ls x := by
  have hwide : ∀ {used rest used' rest'}, Twin limit' used rest used' rest' →
      Twin limit used rest used' rest' := fun h ↦ ⟨h.tokens, h.next, Nat.le_trans h.length hlimit⟩
  cases x with
  | ok r =>
    obtain ⟨used, hls, hagain⟩ := h
    exact ⟨used, hls, fun used' rest' htwin ↦ hagain used' rest' (hwide htwin)⟩
  | error err =>
    rcases h with hdeep | ⟨used, rest, hls, hcolumn, hused, hagain⟩
    · exact .inl hdeep
    · exact .inr ⟨used, rest, hls, hcolumn, hV _ hused,
        fun used' rest' htwin ↦ hagain used' rest' (hwide htwin)⟩

/-- Lexemes that are read first, whatever the reader makes of them. -/
theorem after (used : List Lexeme)
    (h : Retraces stop (limit - used.length) (fun ts ↦ V (used.map (·.token) ++ ts)) g rest x)
    (hf : ∀ used' rest', Twin limit used rest used' rest' → f (used' ++ rest') = g rest') :
    Retraces stop limit V f (used ++ rest) x := by
  cases x with
  | ok r =>
    obtain ⟨used₂, rfl, hagain⟩ := h
    refine ⟨used ++ used₂, by simp, fun used' rest' htwin ↦ ?_⟩
    obtain ⟨used₁', used₂', rfl, h₁, h₂⟩ := htwin.split
    rw [List.append_assoc, hf _ _ h₁]
    exact hagain _ _ h₂
  | error err =>
    rcases h with hdeep | ⟨used₂, rest, rfl, hcolumn, hV, hagain⟩
    · exact .inl hdeep
    · refine .inr ⟨used ++ used₂, rest, by simp, hcolumn, by simpa using hV, ?_⟩
      intro used' rest' htwin
      obtain ⟨used₁', used₂', rfl, h₁, h₂⟩ := htwin.split
      rw [List.append_assoc, hf _ _ h₁]
      exact hagain _ _ h₂

theorem congr (h : Retraces stop limit V g ls x)
    (hf : ∀ ls', nextToken ls' = nextToken ls → f ls' = g ls') : Retraces stop limit V f ls x := by
  refine after [] h fun used' rest' htwin ↦ ?_
  obtain rfl : used' = [] := List.map_eq_nil_iff.1 htwin.tokens
  exact hf rest' htwin.next

/-- One lexeme that is read first. -/
theorem step {c : Nat} (h : Retraces stop (limit - 1) (fun ts ↦ V (t :: ts)) g rest x)
    (hf : ∀ c' rest', nextToken rest' = nextToken rest → rest'.length < limit →
      f (⟨t, c'⟩ :: rest') = g rest') :
    Retraces stop limit V f (⟨t, c⟩ :: rest) x := by
  refine after [⟨t, c⟩] h fun used' rest' htwin ↦ ?_
  obtain ⟨⟨t, c'⟩, rfl, rfl⟩ := List.map_eq_singleton_iff.1 htwin.tokens
  exact hf c' rest' htwin.next htwin.length

theorem bind {q g : α × List Lexeme → Except Error (β × List Lexeme)}
    (h : Retraces stop limit V f ls x) (hV : ∀ ts, V ts → W ts)
    (hq : ∀ a used rest, x = .ok (a, rest) → ls = used ++ rest →
      Retraces stop (limit - used.length) (fun ts ↦ W (used.map (·.token) ++ ts))
        (fun ls' ↦ g (a, ls')) rest (q (a, rest))) :
    Retraces stop limit W (fun ls' ↦ f ls' >>= g) ls (x >>= q) := by
  cases x with
  | ok r =>
    obtain ⟨used, rfl, hagain⟩ := h
    refine after used (hq r.1 used r.2 rfl rfl) fun used' rest' htwin ↦ ?_
    rw [hagain used' rest' htwin]
    rfl
  | error err =>
    rcases h with hdeep | ⟨used, rest, hls, hcolumn, hused, hagain⟩
    · exact .inl hdeep
    · refine .inr ⟨used, rest, hls, hcolumn, hV _ hused, fun used' rest' htwin ↦ ?_⟩
      obtain ⟨err', herr⟩ := hagain used' rest' htwin
      exact ⟨err', congrArg (· >>= g) herr⟩

theorem map (k : α → β) (h : Retraces stop limit V f ls x) :
    Retraces stop limit V (fun ls' ↦ f ls' >>= fun r ↦ .ok (k r.1, r.2)) ls
      (x >>= fun r ↦ .ok (k r.1, r.2)) :=
  h.bind (fun _ ↦ id) fun _ _ _ _ _ ↦ .done fun _ _ ↦ rfl

end Retraces

theorem exists_of_nextToken (h : nextToken ls = some t) :
    ∃ column rest, ls = ⟨t, column⟩ :: rest := by
  cases ls with
  | nil => cases h
  | cons l rest =>
    obtain rfl : l.token = t := Option.some.inj h
    exact ⟨l.column, rest, rfl⟩

theorem expect_of_ne (h : nextToken ls ≠ some t) :
    expect stop t ls = .error ⟨.expected t (nextToken ls), columnOf stop ls⟩ := by
  cases ls with
  | nil => rfl
  | cons l ls =>
    have hl : l.token ≠ t := fun hl ↦ h (congrArg some hl)
    simp [expect, hl, failAt, nextToken]

theorem Retraces.expect {q g : List Lexeme → Except Error (α × List Lexeme)} (t : Token)
    (hV : V []) (hq : ∀ rest, rest.length < ls.length →
      Retraces stop (limit - 1) (fun ts ↦ V (t :: ts)) g rest (q rest)) :
    Retraces stop limit V (fun ls' ↦ Formula.expect stop' t ls' >>= g) ls
      (Formula.expect stop t ls >>= q) := by
  by_cases hnext : nextToken ls = some t
  · obtain ⟨c, rest, rfl⟩ := exists_of_nextToken hnext
    have hread : Formula.expect stop t (⟨t, c⟩ :: rest) = .ok rest := expect_of_next rfl
    rw [hread]
    refine .step (hq rest (Nat.lt_succ_self _)) fun c' rest' _ _ ↦ ?_
    exact congrArg (· >>= g) (expect_of_next rfl)
  · rw [expect_of_ne hnext]
    refine Retraces.failed [] ls hV fun used' rest' hused hrest ↦ ?_
    obtain rfl : used' = [] := List.map_eq_nil_iff.1 hused
    exact ⟨_, congrArg (· >>= g) (expect_of_ne (hrest ▸ hnext))⟩

/-- What stands before a closing parenthesis. -/
theorem Retraces.closed {f : List Lexeme → Except Error (α × List Lexeme)}
    {x : Except Error (α × List Lexeme)} (stop' : Nat) (k : α → β)
    (h : Retraces stop limit V f ls x) (hV : ∀ ts, V ts → W ts)
    (hread : ∀ a used rest, x = .ok (a, rest) → ls = used ++ rest → V (used.map (·.token))) :
    Retraces stop limit W
      (fun ls' ↦ f ls' >>= fun r ↦ Formula.expect stop' .closeParen r.2 >>= fun rest ↦
        .ok (k r.1, rest))
      ls (x >>= fun r ↦ Formula.expect stop .closeParen r.2 >>= fun rest ↦ .ok (k r.1, rest)) := by
  refine h.bind hV fun a used rest hx hls ↦ ?_
  dsimp only
  refine .expect .closeParen ?_ fun rest' _ ↦ .done fun _ _ ↦ rfl
  rw [List.append_nil]
  exact hV _ (hread a used rest hx hls)

theorem Category.Sound.derives {c : Category} {read : List Lexeme → Outcome} {used : List Lexeme}
    (h : c.Sound limit depth read) (hls : (used ++ rest).length ≤ limit)
    (hread : read (used ++ rest) = .ok (e, rest)) : Derives c depth (used.map (·.token)) e := by
  obtain ⟨used', hused, hd⟩ := h _ _ _ hls hread
  rwa [List.append_cancel_right hused]

theorem members_of_dot {column : Nat} (h : ∀ field, nextToken rest ≠ some (.name field)) :
    members stop e (⟨.dot, column⟩ :: rest) =
      .error ⟨.expectedField (nextToken rest), columnOf stop rest⟩ := by
  rcases rest with _ | ⟨⟨t, c⟩, rest⟩
  · rfl
  · cases t with
    | name field => exact absurd rfl (h field)
    | _ => rfl

theorem members_retraces_dot {column : Nat} (hpath : Derives .path depth ts e)
    (hrest : ∀ field, nextToken rest ≠ some (.name field)) :
    Retraces stop limit (fun us ↦ Category.path.Viable depth (ts ++ us)) (members stop' e)
      (⟨.dot, column⟩ :: rest) (.error ⟨.expectedField (nextToken rest), columnOf stop rest⟩) := by
  refine .failed [⟨.dot, column⟩] rest ⟨[.name "x"], _, by simpa using hpath.member "x"⟩ ?_
  intro used' rest' hused hnext
  obtain ⟨⟨t, c⟩, rfl, rfl⟩ := List.map_eq_singleton_iff.1 hused
  exact ⟨_, members_of_dot fun field ↦ hnext ▸ hrest field⟩

theorem members_retraces (hpath : Derives .path depth ts e) :
    Retraces stop limit (fun us ↦ Category.path.Viable depth (ts ++ us)) (members stop' e) ls
      (members stop e ls) := by
  fun_induction members stop e ls generalizing ts limit with
  | case1 e c₁ field c₂ rest ih =>
    refine .after [⟨.dot, c₁⟩, ⟨.name field, c₂⟩]
      ((ih (hpath.member field)).imp (Nat.le_refl _) ?_) ?_
    · intro us hus
      simpa using hus
    · intro used' rest' htwin
      obtain ⟨c₁', _, rfl, htail⟩ := exists_lexeme_of_map htwin.tokens
      obtain ⟨⟨t, c₂'⟩, rfl, rfl⟩ := List.map_eq_singleton_iff.1 htail
      rfl
  | case2 e c l rest hname =>
    refine members_retraces_dot hpath fun field hfield ↦ ?_
    obtain ⟨t, c'⟩ := l
    obtain rfl : t = .name field := Option.some.inj hfield
    exact hname field c' rfl
  | case3 e c => exact members_retraces_dot hpath fun field h ↦ by cases h
  | case4 e ls hnamed hother hdot =>
    have hnext : nextToken ls ≠ some .dot := by
      intro h
      rcases ls with _ | ⟨⟨t, c⟩, _ | ⟨l, rest⟩⟩
      · cases h
      · cases Option.some.inj h
        exact hdot c rfl
      · cases Option.some.inj h
        exact hother c l rest rfl
    exact .done fun ls' hls' ↦ members_of_ends (hls' ▸ hnext)

def ViableAll (depth : Nat) (ts : List Token) : Prop :=
  ∃ (more : List Token) (args : List (List Token × Formula)), args ≠ [] ∧
    ts ++ more = commaSeparated (args.map (·.1)) ∧ ∀ a ∈ args, Derives .whole depth a.1 a.2

theorem Category.Viable.all (h : Category.whole.Viable depth ts) : ViableAll depth ts := by
  obtain ⟨more, e, h⟩ := h
  exact ⟨more, [(ts ++ more, e)], List.cons_ne_nil _ _, rfl, by simpa using h⟩

theorem ViableAll.cons (he : Derives .whole depth us e) (h : ViableAll depth ts) :
    ViableAll depth (us ++ .comma :: ts) := by
  obtain ⟨more, args, hne, htokens, hargs⟩ := h
  obtain ⟨a, args, rfl⟩ := List.exists_cons_of_ne_nil hne
  refine ⟨more, (us, e) :: a :: args, List.cons_ne_nil _ _, ?_, List.forall_mem_cons.2 ⟨he, hargs⟩⟩
  simp only [List.map_cons, List.append_assoc, List.cons_append, commaSeparated] at htokens ⊢
  rw [htokens]

theorem Category.Viable.of_derives {c : Category} (h : Derives c depth ts e) : c.Viable depth ts :=
  ⟨[], e, by simpa using h⟩

theorem Category.Viable.group (h : Category.whole.Viable depth ts) :
    Category.primary.Viable depth (.openParen :: ts) := by
  obtain ⟨more, e, h⟩ := h
  exact ⟨more ++ [.closeParen], e, by simpa using h.group⟩

theorem ConsumesAll.viableAll {es : List Formula} {used : List Lexeme}
    (h : ConsumesAll depth (used ++ rest) es rest) : ViableAll depth (used.map (·.token)) := by
  obtain ⟨used', args, hused, -, hne, htokens, hargs⟩ := h
  rw [List.append_cancel_right hused]
  exact ⟨[], args, hne, by rw [List.append_nil, htokens], hargs⟩

theorem ViableAll.call (callee : String) (h : ViableAll depth ts) :
    Category.primary.Viable depth (.name callee :: .openParen :: ts) := by
  obtain ⟨more, args, -, htokens, hargs⟩ := h
  refine ⟨more ++ [.closeParen], .call callee (args.map (·.2)), ?_⟩
  have hcall := Derives.call callee args hargs
  rw [← htokens] at hcall
  simpa using hcall

section

variable {inner inner' read read' signed signed' : List Lexeme → Outcome}

structure Mirrors (c : Category) (stop limit limit' depth : Nat)
    (read read' : List Lexeme → Outcome) : Prop where
  sound : c.Sound limit depth read
  retraces : ∀ ls, ls.length ≤ limit → Retraces stop limit' (c.Viable depth) read' ls (read ls)

theorem arguments_retraces (hinner : Mirrors .whole stop limit limit' depth inner inner')
    {budget budget' : Nat} (hbudget : ls.length ≤ budget) (hls : ls.length ≤ limit)
    (hbudget' : budget' ≤ limit') :
    Retraces stop budget' (ViableAll depth) (arguments inner' (budget' + 1)) ls
      (arguments inner (budget + 1) ls) := by
  induction budget using Nat.strong_induction_on generalizing ls budget' with
  | _ budget ih =>
  refine .bind ((hinner.retraces ls hls).imp hbudget' fun _ ↦ id) (fun _ ↦ Category.Viable.all) ?_
  intro e used rest hread hused
  subst hused
  have he := hinner.sound.derives hls hread
  dsimp only
  split
  · rename_i c tail
    simp only [List.length_append, List.length_cons] at hbudget hls
    obtain ⟨budget, rfl⟩ : ∃ k, budget = k + 1 := ⟨budget - 1, by omega⟩
    have hmore := ih budget (Nat.lt_succ_self _) (show tail.length ≤ budget by omega) (by omega)
      (show budget' - 1 ≤ limit' by omega)
    refine .step ((hmore.imp ?_ fun us hus ↦ ?_).map (e :: ·)) fun c' rest' _ hrest' ↦ ?_
    · omega
    · exact hus.cons he
    · obtain ⟨budget', rfl⟩ : ∃ k, budget' = k + 1 := ⟨budget' - 1, by omega⟩
      rfl
  · rename_i hcomma
    refine .done fun ls' hls' ↦ ?_
    split
    · rename_i c tail
      obtain ⟨c', tail', rfl⟩ := exists_of_nextToken hls'.symm
      exact absurd rfl (hcomma c' tail')
    · rfl

theorem primary_of_not_startsPath (h : ∀ t, nextToken ls = some t → t.startsPath = false) :
    primary stop limit inner ls = .error ⟨.unexpected (nextToken ls), columnOf stop ls⟩ := by
  rcases ls with _ | ⟨⟨t, c⟩, ls⟩
  · rfl
  · have ht := h t rfl
    cases t with
    | number | name | openParen => cases ht
    | _ => rfl

theorem primary_retraces_call (hinner : Mirrors .whole stop limit limit' depth inner inner')
    {callee : String} {c₁ c₂ : Nat} (hls : rest.length + 2 ≤ limit) :
    Retraces stop limit' (Category.primary.Viable depth) (primary stop' limit' inner')
      (⟨.name callee, c₁⟩ :: ⟨.openParen, c₂⟩ :: rest)
      (primary stop limit inner (⟨.name callee, c₁⟩ :: ⟨.openParen, c₂⟩ :: rest)) := by
  by_cases hclose : nextToken rest = some .closeParen
  · obtain ⟨c₃, rest, rfl⟩ := exists_of_nextToken hclose
    refine .after [⟨.name callee, c₁⟩, ⟨.openParen, c₂⟩, ⟨.closeParen, c₃⟩] (.done fun _ _ ↦ rfl)
      fun used' rest' htwin ↦ ?_
    obtain ⟨c₁', _, rfl, htail⟩ := exists_lexeme_of_map htwin.tokens
    obtain ⟨c₂', _, rfl, hlast⟩ := exists_lexeme_of_map htail
    obtain ⟨⟨t, c₃'⟩, rfl, rfl⟩ := List.map_eq_singleton_iff.1 hlast
    rfl
  · have hargs : Retraces stop (limit' - 2) (ViableAll depth) (arguments inner' (limit' - 1 + 1))
        rest (arguments inner limit rest) := by
      obtain ⟨budget, rfl⟩ : ∃ k, limit = k + 1 := ⟨limit - 1, by omega⟩
      exact (arguments_retraces hinner (by omega) (by omega) (Nat.sub_le limit' 1)).imp (by omega)
        fun _ ↦ id
    rw [primary_call rfl rfl hclose]
    refine .after [⟨.name callee, c₁⟩, ⟨.openParen, c₂⟩]
      (hargs.closed stop' (Formula.call callee) (fun _ ↦ ViableAll.call callee) ?_) ?_
    · rintro args used rest hread rfl
      exact (arguments_sound hinner.sound (by omega) hread).viableAll
    · intro used' rest' htwin
      have hlength := htwin.length
      obtain ⟨c₁', _, rfl, htail⟩ := exists_lexeme_of_map htwin.tokens
      obtain ⟨⟨t, c₂'⟩, rfl, rfl⟩ := List.map_eq_singleton_iff.1 htail
      simp only [List.length_append, List.length_cons] at hlength
      have hlimit : limit' - 1 + 1 = limit' := by omega
      rw [hlimit]
      exact primary_call rfl rfl (htwin.next ▸ hclose)

theorem primary_retraces_unexpected (h : ∀ t, nextToken ls = some t → t.startsPath = false) :
    Retraces stop limit' (Category.primary.Viable depth) (primary stop' limit' inner') ls
      (primary stop limit inner ls) := by
  rw [primary_of_not_startsPath h]
  refine .failed [] ls ⟨[.name "x"], _, .name "x"⟩ fun used' rest' hused hnext ↦ ?_
  obtain rfl : used' = [] := List.map_eq_nil_iff.1 hused
  exact ⟨_, primary_of_not_startsPath (hnext ▸ h)⟩

theorem primary_retraces (hinner : Mirrors .whole stop limit limit' depth inner inner')
    (hls : ls.length ≤ limit) :
    Retraces stop limit' (Category.primary.Viable depth) (primary stop' limit' inner') ls
      (primary stop limit inner ls) := by
  rcases ls with _ | ⟨⟨t, c⟩, rest⟩
  · exact primary_retraces_unexpected nofun
  have hrest : rest.length ≤ limit := Nat.le_of_succ_le hls
  cases t with
  | number n => exact .step (.done fun _ _ ↦ rfl) fun _ _ _ _ ↦ rfl
  | name x =>
    by_cases hopen : nextToken rest = some .openParen
    · obtain ⟨c', rest, rfl⟩ := exists_of_nextToken hopen
      exact primary_retraces_call hinner hls
    · rw [primary_name rfl hopen]
      exact .step (.done fun _ _ ↦ rfl) fun c' rest' hrest' _ ↦ primary_name rfl (hrest' ▸ hopen)
  | openParen =>
    have hgroup := (hinner.retraces rest hrest).imp (Nat.sub_le limit' 1) fun _ ↦ id
    refine .step (hgroup.closed stop' id (fun _ ↦ Category.Viable.group) ?_) fun _ _ _ _ ↦ rfl
    rintro e used rest hread rfl
    exact .of_derives (hinner.sound.derives hrest hread)
  | _ => exact primary_retraces_unexpected fun t ht ↦ by cases Option.some.inj ht; rfl

theorem operand_retraces (hinner : Mirrors .whole stop limit limit' depth inner inner')
    (hsigned : ∀ ls, ls.length ≤ limit → Retraces stop limit'
      (fun ts ↦ ∀ t op, t.sign? = some op → Category.operand.Viable depth (t :: ts)) signed' ls
      (signed ls)) (hls : ls.length ≤ limit) :
    Retraces stop limit' (Category.operand.Viable depth) (operand stop' limit' signed' inner') ls
      (operand stop limit signed inner ls) := by
  cases hsign : (nextToken ls).bind Token.sign? with
  | some op =>
    obtain ⟨t, ht, hop⟩ := Option.bind_eq_some_iff.1 hsign
    obtain ⟨c, rest, rfl⟩ := exists_of_nextToken ht
    rw [operand_of_sign hop]
    have hrest := hsigned rest (Nat.le_of_succ_le hls)
    refine .step ((hrest.imp (Nat.sub_le _ _) ?_).map (Formula.unary op))
      fun c' rest' _ _ ↦ operand_of_sign hop
    exact fun ts hts ↦ hts t op hop
  | none =>
    rw [operand_of_path hsign]
    refine .congr (.bind (primary_retraces hinner hls) ?_ ?_)
      fun ls' hls' ↦ operand_of_path (hls' ▸ hsign)
    · rintro ts ⟨more, e, h⟩
      exact ⟨more, e, h.primary.path⟩
    · rintro e used rest hread rfl
      have he := ((primary_sound hinner.sound).derives hls hread).primary
      refine (members_retraces he).imp (Nat.le_refl _) ?_
      rintro ts ⟨more, e, h⟩
      exact ⟨more, e, h.path⟩

theorem Extends.derives {least : Nat} {used : List Lexeme}
    (h : Extends depth least ts (used ++ rest) e rest) :
    Derives (.chain least) depth (ts ++ used.map (·.token)) e ∧
      ∀ op, nextToken rest = some (.operator op) → op.precedence < least := by
  obtain ⟨used', hused, hd, hweak⟩ := h
  rw [List.append_cancel_right hused]
  exact ⟨hd, hweak⟩

theorem chain_extends (hread : Category.operand.Sound limit depth read) {budget least : Nat}
    (hbudget : ls.length ≤ budget) (hls : ls.length ≤ limit) (hleast : least ≤ 8)
    (h : (read ls >>= fun r ↦ operators read budget least r.1 r.2) = .ok (e, rest)) :
    Extends depth least [] ls e rest := by
  obtain ⟨⟨first, mid⟩, hfirst, hmore⟩ := bind_eq_ok.1 h
  dsimp only at hmore
  obtain ⟨used₁, rfl, h₁⟩ := hread _ _ _ hls hfirst
  rw [List.length_append] at hbudget hls
  obtain ⟨used₂, rfl, h₂, hweak⟩ := operators_sound hread (by omega) (by omega) (h₁.operand 8)
    hleast (fun op _ ↦ by have := op.precedence_le; omega) hmore
  exact ⟨used₁ ++ used₂, by simp, by simpa using h₂, hweak⟩

/-- An operand and the operators after it, as far as those are known to be retraced. -/
theorem chain_retraces (hread : Mirrors .operand stop limit limit' depth read read')
    {budget budget' least : Nat} (hls : ls.length ≤ limit) (hbudget' : budget' ≤ limit')
    (hmore : ∀ first ts rest, rest.length ≤ ls.length → Derives (.chain 8) depth ts first →
      Retraces stop budget' (fun us ↦ (Category.chain least).Viable depth (ts ++ us))
        (operators read' budget' least first) rest (operators read budget least first rest)) :
    Retraces stop budget' ((Category.chain least).Viable depth)
      (fun ls' ↦ read' ls' >>= fun r ↦ operators read' budget' least r.1 r.2) ls
      (read ls >>= fun r ↦ operators read budget least r.1 r.2) := by
  refine .bind ((hread.retraces ls hls).imp hbudget' fun _ ↦ id) ?_ ?_
  · rintro ts ⟨more, e, h⟩
    exact ⟨more, e, h.operand least⟩
  · rintro first used rest hfirst rfl
    have hd := (hread.sound.derives hls hfirst).operand 8
    exact (hmore first _ rest (by simp) hd).imp (Nat.sub_le _ _) fun _ ↦ id

theorem operators_retraces (hread : Mirrors .operand stop limit limit' depth read read')
    {budget budget' least p : Nat} {lhs : Formula} (hbudget : ls.length ≤ budget)
    (hls : ls.length ≤ limit) (hbudget' : budget' ≤ limit') (hlhs : Derives (.chain p) depth ts lhs)
    (hleast : least ≤ p) (hnext : ∀ op, nextToken ls = some (.operator op) → op.precedence ≤ p) :
    Retraces stop budget' (fun us ↦ (Category.chain least).Viable depth (ts ++ us))
      (operators read' budget' least lhs) ls (operators read budget least lhs ls) := by
  induction budget generalizing ls budget' least p ts lhs with
  | zero =>
    obtain rfl : ls = [] := List.length_eq_zero_iff.1 (Nat.le_zero.1 hbudget)
    exact .done fun ls' hls' ↦ operators_of_ends (hls' ▸ nofun)
  | succ budget ih =>
    by_cases hweak : ∀ op, nextToken ls = some (.operator op) → op.precedence < least
    · rw [operators_of_ends hweak]
      exact .done fun ls' hls' ↦ operators_of_ends (hls' ▸ hweak)
    · simp only [not_forall, Nat.not_lt] at hweak
      obtain ⟨op, hop, hstrong⟩ := hweak
      have hq := hnext op hop
      have hprec := op.precedence_le
      obtain ⟨c, rest, rfl⟩ := exists_of_nextToken hop
      rw [operators_of_next rfl hstrong]
      simp only [List.length_cons] at hbudget hls
      have hrhs : Retraces stop (budget' - 1) ((Category.chain (op.precedence + 1)).Viable depth)
          (fun ls' ↦ read' ls' >>= fun r ↦
            operators read' (budget' - 1) (op.precedence + 1) r.1 r.2)
          rest (read rest >>= fun r ↦ operators read budget (op.precedence + 1) r.1 r.2) := by
        refine chain_retraces hread (by omega) (by omega) fun first ts tail htail hfirst ↦ ?_
        refine ih (by omega) (by omega) (by omega) hfirst (by omega) fun op' _ ↦ ?_
        have := op'.precedence_le
        omega
      refine .step (.bind
        (g := fun r ↦ operators read' (budget' - 1) least (.binary op lhs r.1) r.2)
        hrhs ?_ ?_) fun c' rest' _ hrest' ↦ ?_
      · rintro us ⟨more, e, h⟩
        exact ⟨more, _, by simpa using Derives.binary op hstrong (hlhs.loosen hq) h⟩
      · rintro rhs used tail hread' rfl
        obtain ⟨hd, hweak⟩ :=
          (chain_extends hread.sound (by omega) (by omega) (by omega) hread').derives
        have hbinary := Derives.binary op (Nat.le_refl _) (hlhs.loosen hq) hd
        rw [List.length_append] at hbudget hls
        have hmore := ih (show tail.length ≤ budget by omega) (by omega)
          (show budget' - 1 ≤ limit' by omega) hbinary hstrong
          fun op' hop' ↦ Nat.le_of_lt_succ (hweak op' hop')
        refine hmore.imp (Nat.sub_le _ _) fun us hus ↦ ?_
        simpa using hus
      · obtain ⟨budget', rfl⟩ : ∃ k, budget' = k + 1 := ⟨budget' - 1, by omega⟩
        exact operators_of_next rfl hstrong

/-- What stands after the question mark. To complete it, the first alternative can be repeated. -/
theorem alternatives_retraces (stop' : Nat)
    (hinner : Mirrors .whole stop limit limit' depth inner inner') {test : Formula}
    (htest : Derives (.chain 2) depth ts test) (hls : ls.length ≤ limit) :
    Retraces stop limit' (fun us ↦ Category.whole.Viable (depth + 1) (ts ++ .question :: us))
      (fun ls' ↦ inner' ls' >>= fun r ↦ expect stop' .colon r.2 >>= fun rest ↦
        inner' rest >>= fun s ↦ .ok (conditional test r.1 s.1, s.2)) ls
      (inner ls >>= fun r ↦ expect stop .colon r.2 >>= fun rest ↦
        inner rest >>= fun s ↦ .ok (conditional test r.1 s.1, s.2)) := by
  refine .bind (hinner.retraces ls hls) ?_ ?_
  · rintro us ⟨more, yes, h⟩
    exact ⟨more ++ .colon :: (us ++ more), _, by simpa using htest.conditional h h⟩
  · rintro yes used rest hread rfl
    have hyes := hinner.sound.derives hls hread
    rw [List.length_append] at hls
    dsimp only
    refine .expect .colon ?_ fun tail htail ↦ ?_
    · exact ⟨.colon :: used.map (·.token), _, by simpa using htest.conditional hyes hyes⟩
    · have hno := hinner.retraces tail (by omega)
      refine (hno.imp (by omega) ?_).map (Formula.conditional test yes)
      rintro us ⟨more, no, h⟩
      exact ⟨more, _, by simpa using htest.conditional hyes h⟩

theorem choice_retraces (hread : Mirrors .operand stop limit limit' depth read read')
    (hinner : Mirrors .whole stop limit limit' depth inner inner') (hls : ls.length ≤ limit) :
    Retraces stop limit' (Category.whole.Viable (depth + 1)) (choice stop' limit' read' inner') ls
      (choice stop limit read inner ls) := by
  have htest : Retraces stop limit' ((Category.chain 2).Viable depth)
      (fun ls' ↦ read' ls' >>= fun r ↦ operators read' limit' 2 r.1 r.2) ls
      (read ls >>= fun r ↦ operators read limit 2 r.1 r.2) := by
    refine chain_retraces hread hls (Nat.le_refl _) fun first ts rest hrest hfirst ↦ ?_
    refine operators_retraces hread (by omega) (by omega) (Nat.le_refl _) hfirst (by omega)
      fun op _ ↦ ?_
    have := op.precedence_le
    omega
  rw [choice_eq]
  refine .congr (.bind htest ?_ ?_) fun ls' _ ↦ choice_eq ls'
  · rintro ts ⟨more, e, h⟩
    exact ⟨more, e, h.chain⟩
  · rintro test used rest hread' rfl
    obtain ⟨hd, -⟩ := (chain_extends hread.sound hls hls (by omega) hread').derives
    rw [List.length_append] at hls
    dsimp only
    by_cases hquestion : nextToken rest = some .question
    · obtain ⟨c, tail, rfl⟩ := exists_of_nextToken hquestion
      rw [List.length_cons] at hls
      refine .step ((alternatives_retraces stop' hinner hd (by omega)).imp (by omega) ?_) ?_
      · intro us hus
        simpa using hus
      · intro c' rest' _ _
        rfl
    · split
      · exact absurd rfl hquestion
      · refine .done fun ls' hls' ↦ ?_
        split
        · exact absurd hls'.symm hquestion
        · rfl

/-- Two readers that differ in the column where the text ends, and in how long it may be. -/
theorem readers_mirror (room : Nat) :
    Mirrors .operand stop limit limit' room (readers stop limit room).operand
        (readers stop' limit' room).operand ∧
      Mirrors .whole stop limit limit' room (readers stop limit room).whole
        (readers stop' limit' room).whole := by
  induction room with
  | zero =>
    have hwhole : Mirrors .whole stop limit limit' 0 (readers stop limit 0).whole
        (readers stop' limit' 0).whole := ⟨(readers_sound 0).2, fun _ _ ↦ .inl rfl⟩
    exact ⟨⟨(readers_sound 0).1, fun _ ↦ operand_retraces hwhole fun _ _ ↦ .inl rfl⟩, hwhole⟩
  | succ room ih =>
    have hwhole : Mirrors .whole stop limit limit' (room + 1) (readers stop limit (room + 1)).whole
        (readers stop' limit' (room + 1)).whole :=
      ⟨(readers_sound (room + 1)).2, fun _ ↦ choice_retraces ih.1 ih.2⟩
    refine ⟨⟨(readers_sound (room + 1)).1, fun _ ↦ operand_retraces hwhole fun ls hls ↦ ?_⟩, hwhole⟩
    refine (ih.1.retraces ls hls).imp (Nat.le_refl _) ?_
    rintro ts ⟨more, e, h⟩ t op ht
    exact ⟨more, _, h.sign ht⟩

end

end NodeShader.Formula

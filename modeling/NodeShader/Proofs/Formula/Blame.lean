import NodeShader.Proofs.Formula.Layout
import NodeShader.Proofs.Formula.Retracing

namespace NodeShader.Formula

variable {stop : Nat} {ts : List Token} {ls : List Lexeme} {e : Formula}

def Accepted (ts : List Token) : Prop :=
  ∃ stop ls e, ls.map (·.token) = ts ∧ ofLexemes stop ls = .ok e

theorem Category.Viable.accepted (h : Category.whole.Viable maxNesting ts) :
    ∃ more, Accepted (ts ++ more) := by
  obtain ⟨more, e, h⟩ := h
  have htokens : ((ts ++ more).map fun t ↦ (⟨t, 0⟩ : Lexeme)).map (·.token) = ts ++ more := by
    simp [Function.comp_def]
  rw [← htokens] at h
  rcases h.ofLexemes 0 with hok | ⟨hlt, -⟩
  · exact ⟨more, 0, _, e, htokens, hok⟩
  · exact absurd hlt (Nat.lt_irrefl _)

theorem whole_of_ofLexemes (h : ofLexemes stop ls = .ok e) :
    (readers stop ls.length maxNesting).whole ls = .ok (e, []) := by
  unfold ofLexemes at h
  split at h
  · cases h
  · obtain ⟨⟨e', rest⟩, he, h⟩ := bind_eq_ok.1 h
    dsimp only at h
    split at h
    · cases h
      exact he
    · cases h

/-- The reader of the lexemes failed, or it left some of them. -/
theorem whole_of_ofLexemes_error {err : Error} (h : ofLexemes stop ls = .error err)
    (hne : ls ≠ []) :
    (readers stop ls.length maxNesting).whole ls = .error err ∨
      ∃ e l rest, (readers stop ls.length maxNesting).whole ls = .ok (e, l :: rest) ∧
        err = ⟨.unexpected (some l.token), l.column⟩ := by
  unfold ofLexemes at h
  split at h
  · contradiction
  · cases hread : (readers stop ls.length maxNesting).whole ls with
    | error err' =>
      rw [hread] at h
      cases h
      exact .inl rfl
    | ok r =>
      obtain ⟨e, _ | ⟨l, rest⟩⟩ := r
      · rw [hread] at h
        cases h
      · rw [hread] at h
        cases h
        exact .inr ⟨e, l, rest, rfl, rfl⟩

/-- The place where the lexemes cease to begin an expression, found by comparison with lists of
`limit` lexemes. -/
theorem ofLexemes_blames (stop' limit : Nat) {err : Error} (h : ofLexemes stop ls = .error err)
    (hdeep : err.cause ≠ .tooDeep) :
    ∃ before after, ls = before ++ after ∧ err.column = columnOf stop after ∧
      Category.whole.Viable maxNesting (before.map (·.token)) ∧
      ∀ before' after' e, (before' ++ after').length = limit →
        before'.map (·.token) = before.map (·.token) → nextToken after' = nextToken after →
        ofLexemes stop' (before' ++ after') ≠ .ok e := by
  by_cases hne : ls = []
  · subst hne
    cases h
    have hname : Derives .whole maxNesting [.name "x"] (.name "x") :=
      ((Derives.name "x").primary.path.operand 2).chain
    refine ⟨[], [], rfl, rfl, ⟨[.name "x"], _, hname⟩, ?_⟩
    intro before' after' e _ hbefore hafter hok
    obtain rfl : before' = [] := List.map_eq_nil_iff.1 hbefore
    cases after' with
    | nil => cases hok
    | cons l after' => cases hafter
  have hmirror : Mirrors .whole stop ls.length limit maxNesting
      (readers stop ls.length maxNesting).whole (readers stop' limit maxNesting).whole :=
    (readers_mirror maxNesting).2
  have hretraces := hmirror.retraces ls (Nat.le_refl _)
  rcases whole_of_ofLexemes_error h hne with hread | ⟨e, l, rest, hread, rfl⟩
  · rw [hread] at hretraces
    rcases hretraces with hdeep' | ⟨before, after, hls, hcolumn, hviable, hagain⟩
    · exact absurd hdeep' hdeep
    · refine ⟨before, after, hls, hcolumn, hviable, ?_⟩
      intro before' after' e hlimit hbefore hafter hok
      obtain ⟨err', herr⟩ := hagain before' after' ⟨hbefore, hafter, Nat.le_of_eq hlimit⟩
      have hwhole := whole_of_ofLexemes hok
      rw [hlimit, herr] at hwhole
      cases hwhole
  · rw [hread] at hretraces
    obtain ⟨before, rfl, hagain⟩ := hretraces
    have hd := hmirror.sound.derives (Nat.le_refl _) hread
    refine ⟨before, l :: rest, rfl, rfl, .of_derives hd, ?_⟩
    intro before' after' e' hlimit hbefore hafter hok
    have hwhole := whole_of_ofLexemes hok
    rw [hlimit, hagain before' after' ⟨hbefore, hafter, Nat.le_of_eq hlimit⟩] at hwhole
    cases hwhole
    cases hafter

theorem columnOf_mem (stop : Nat) (before after : List Lexeme) :
    columnOf stop after ∈ (before ++ after).map (·.column) ++ [stop] := by
  cases after <;> simp [columnOf]

theorem eq_nil_of_columnOf {before after : List Lexeme}
    (h : ((before ++ after).map (·.column) ++ [stop]).Pairwise (· < ·))
    (hcolumn : columnOf stop (before ++ after) = columnOf stop after) : before = [] := by
  cases before with
  | nil => rfl
  | cons l before =>
    have hlt := (List.pairwise_cons.1 h).1 _ (columnOf_mem stop before after)
    exact absurd hcolumn (Nat.ne_of_lt hlt)

/-- In ascending columns a column stands once. -/
theorem append_inj_of_columnOf {before after before' after' : List Lexeme}
    (h : ((before ++ after).map (·.column) ++ [stop]).Pairwise (· < ·))
    (heq : before ++ after = before' ++ after')
    (hcolumn : columnOf stop after = columnOf stop after') : before = before' ∧ after = after' := by
  rcases List.append_eq_append_iff.1 heq with ⟨mid, rfl, rfl⟩ | ⟨mid, rfl, rfl⟩
  · rw [List.map_append, List.append_assoc] at h
    obtain rfl := eq_nil_of_columnOf (List.pairwise_append.1 h).2.1 hcolumn
    simp
  · rw [List.append_assoc, List.map_append, List.append_assoc] at h
    obtain rfl := eq_nil_of_columnOf (List.pairwise_append.1 h).2.1 hcolumn.symm
    simp

theorem exists_cons_of_stray {c : Char} {cs : List Char}
    (h : tokenAt cs = .error (.strayCharacter c)) : ∃ rest, cs = c :: rest := by
  unfold tokenAt at h
  split at h
  · cases h
  · split at h
    · unfold numberAt at h
      dsimp only at h
      split at h
      · cases h
      · split at h <;> cases h
    · unfold markAt at h
      split at h <;> cases h
      exact ⟨_, rfl⟩

theorem lexemes_of_stray {text : String} {c : Char} {column : Nat}
    (h : lexemes text = .error ⟨.strayCharacter c, column⟩) :
    ∃ before after, text.toList = before ++ c :: after ∧ column = before.length + 1 ∧
      ∃ ls, lexemes (String.ofList before) = .ok ls := by
  obtain ⟨before, after, ls, hdrop, hstands, ⟨hscan, -⟩ | ⟨cause, hscan, hat⟩⟩ :=
    scan_ends 0 1 text.toList
  · cases hscan.symm.trans h
  · cases hscan.symm.trans h
    obtain ⟨rest, rfl⟩ := exists_cons_of_stray hat
    have hspells : Spells (String.ofList before).toList (ls.map (·.token)) := by
      rw [String.toList_ofList]
      exact hstands.spells
    obtain ⟨ls', hls', -⟩ := hspells.lexemes
    exact ⟨before, rest, hdrop, by omega, ls', hls'⟩

/-- An error points at the first token, or at the end of the text, that no expression has after the
tokens before it; unless the expression nests too deeply. A stray character is the first that keeps
the text from splitting into tokens. -/
theorem parse_blames (text : String) :
    (∀ ls cause column, lexemes text = .ok ls → parse text = .error ⟨cause, column⟩ →
      cause ≠ .tooDeep →
      ∃ before after, ls = before ++ after ∧ column = columnOf (endColumn text) after ∧
        (∃ more, Accepted (before.map (·.token) ++ more)) ∧
        ∀ more, Accepted (before.map (·.token) ++ more) → more.head? ≠ nextToken after) ∧
    ∀ c column, lexemes text = .error ⟨.strayCharacter c, column⟩ →
      ∃ before after, text.toList = before ++ c :: after ∧ column = before.length + 1 ∧
        ∃ ls, lexemes (String.ofList before) = .ok ls := by
  refine ⟨fun ls cause column hls hparse hdeep ↦ ?_, fun c column h ↦ lexemes_of_stray h⟩
  have herr : ofLexemes (endColumn text) ls = .error ⟨cause, column⟩ := by
    rw [parse, hls] at hparse
    exact hparse
  have hcolumns : (ls.map (·.column) ++ [endColumn text]).Pairwise (· < ·) := by
    have hascending := (stands_of_lexemes hls).ascending
    rwa [String.length_toList, Nat.add_comm] at hascending
  obtain ⟨before, after, rfl, hcolumn, hviable, -⟩ := ofLexemes_blames 0 0 herr hdeep
  refine ⟨before, after, rfl, hcolumn, hviable.accepted, ?_⟩
  rintro more ⟨stop, ls', e, htokens, hok⟩ hhead
  obtain ⟨before', after', rfl, hbefore, hafter⟩ := List.map_eq_append_iff.1 htokens
  -- the place found for lexemes as many as these is the same one, since no other has its column
  obtain ⟨before₂, after₂, heq, hcolumn₂, -, hfail⟩ :=
    ofLexemes_blames stop (before' ++ after').length herr hdeep
  obtain ⟨rfl, rfl⟩ := append_inj_of_columnOf hcolumns heq (hcolumn.symm.trans hcolumn₂)
  refine hfail before' after' e rfl hbefore ?_ hok
  rw [← hhead, ← hafter, List.head?_map]
  rfl

def Sample.unclosed : List Lexeme :=
  [⟨.name "f", 1⟩, ⟨.openParen, 2⟩, ⟨.name "a", 3⟩, ⟨.name "b", 5⟩]

theorem parse_blames_unclosed :
    (parse "f(a b" = .error ⟨.expected .closeParen (some (.name "b")), 5⟩ ∧
      ∃ before after, Sample.unclosed = before ++ after ∧ 5 = columnOf 6 after ∧
        (∃ more, Accepted (before.map (·.token) ++ more)) ∧
        ∀ more, Accepted (before.map (·.token) ++ more) → more.head? ≠ nextToken after) ∧
    lexemes "a = b" = .error ⟨.strayCharacter '=', 3⟩ ∧
      ∃ before after, ['a', ' ', '=', ' ', 'b'] = before ++ '=' :: after ∧ 3 = before.length + 1 ∧
        ∃ ls, lexemes (String.ofList before) = .ok ls := by
  have hlexemes : lexemes "f(a b" = .ok Sample.unclosed := rfl
  have hparse : parse "f(a b" = .error ⟨.expected .closeParen (some (.name "b")), 5⟩ := rfl
  have hstray : lexemes "a = b" = .error ⟨.strayCharacter '=', 3⟩ := rfl
  exact ⟨⟨hparse, (parse_blames "f(a b").1 _ _ _ hlexemes hparse nofun⟩, hstray,
    (parse_blames "a = b").2 _ _ hstray⟩

end NodeShader.Formula

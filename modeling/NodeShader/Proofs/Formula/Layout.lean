import NodeShader.Proofs.Formula.Printing

namespace NodeShader.Formula

variable {text : String} {t : Token} {ts : List Token} {ls : List Lexeme} {column : Nat}
  {cs written rest : List Char}

/-- The characters stand for the token. A number may be written with an upper-case exponent mark and
with a letter `f` at its end, which is not kept. -/
def Token.WrittenAs : Token → List Char → Prop
  | number n, cs => ∃ body suffix, cs = body ++ suffix ∧ suffix ∈ [[], ['f'], ['F']] ∧
      (body = n.toList ∨ ∃ xs ys, body = xs ++ 'E' :: ys ∧ n.toList = xs ++ 'e' :: ys)
  | t, cs => cs = t.text.toList

theorem Numeral.writtenAs {kept : List Char} (h : Numeral written kept rest) :
    (Token.number (String.ofList kept)).WrittenAs written := by
  obtain @⟨body, exponent, kept, suffix, _, -, -, -, -, hexponent, hsuffix⟩ := h
  refine ⟨body ++ exponent, suffix, by simp, ?_, ?_⟩
  · rcases hsuffix with ⟨rfl, -⟩ | ⟨c, rfl, hc⟩
    · exact List.mem_cons_self
    · have hc : c = 'f' ∨ c = 'F' := by simpa [isSuffix] using hc
      rcases hc with rfl | rfl <;> simp
  · rw [String.toList_ofList]
    cases hexponent with
    | none => exact .inl rfl
    | some hmark =>
      rcases hmark with rfl | rfl
      · exact .inl rfl
      · exact .inr ⟨body, _, rfl, rfl⟩

theorem Reads.writtenAs (h : Reads written t rest) : t.WrittenAs written := by
  cases h with
  | name => exact String.toList_ofList.symm
  | number hn => exact hn.writtenAs
  | mark hm =>
    cases t with
    | number n => cases hm
    | _ => rfl

structure Piece where
  gap : List Char
  written : List Char
  lexeme : Lexeme
  blank : ∀ c ∈ gap, Text.isBlank c
  writes : lexeme.token.WrittenAs written

namespace Piece

def chars (p : Piece) : List Char := p.gap ++ p.written

/-- In a text that starts at a column, every piece has its lexeme where the lexeme says. -/
def Aligned : (column : Nat) → List Piece → Prop
  | _, [] => True
  | column, p :: ps => p.lexeme.column = column + p.gap.length ∧ Aligned (column + p.chars.length) ps

def indent (p : Piece) {c : Char} (hc : Text.isBlank c) : Piece where
  gap := c :: p.gap
  written := p.written
  lexeme := p.lexeme
  blank := List.forall_mem_cons.2 ⟨hc, p.blank⟩
  writes := p.writes

end Piece

namespace Stands

theorem exists_pieces (h : Stands column cs ls) :
    ∃ (pieces : List Piece) (last : List Char), pieces.map (·.lexeme) = ls ∧
      cs = pieces.flatMap Piece.chars ++ last ∧ (∀ c ∈ last, Text.isBlank c) ∧
      Piece.Aligned column pieces := by
  induction h with
  | nil => exact ⟨[], [], rfl, rfl, nofun, trivial⟩
  | @blank column c cs ls hc _ ih =>
    obtain ⟨pieces, last, rfl, rfl, hlast, haligned⟩ := ih
    cases pieces with
    | nil => exact ⟨[], c :: last, rfl, rfl, List.forall_mem_cons.2 ⟨hc, hlast⟩, trivial⟩
    | cons p ps =>
      refine ⟨p.indent hc :: ps, last, rfl, rfl, hlast, ?_, ?_⟩
      · have hstart := haligned.1
        simp only [Piece.indent, List.length_cons]
        omega
      · have hwidth : column + (p.indent hc).chars.length = column + 1 + p.chars.length := by
          simp only [Piece.indent, Piece.chars, List.length_append, List.length_cons]
          omega
        rw [hwidth]
        exact haligned.2
  | @token column written rest t ls hr _ ih =>
    obtain ⟨pieces, last, rfl, rfl, hlast, haligned⟩ := ih
    let p : Piece := ⟨[], written, ⟨t, column⟩, nofun, hr.writtenAs⟩
    refine ⟨p :: pieces, last, rfl, ?_, hlast, rfl, haligned⟩
    rw [List.flatMap_cons, List.append_assoc]
    rfl

theorem le_column (h : Stands column cs ls) : ∀ l ∈ ls, column ≤ l.column := by
  induction h with
  | nil => nofun
  | blank _ _ ih => exact fun l hl ↦ Nat.le_of_succ_le (ih l hl)
  | token _ _ ih =>
    rintro l (_ | ⟨_, hl⟩)
    · exact Nat.le_refl _
    · exact Nat.le_trans (Nat.le_add_right _ _) (ih l hl)

theorem ascending (h : Stands column cs ls) :
    (ls.map (·.column) ++ [column + cs.length]).Pairwise (· < ·) := by
  induction h with
  | nil => simp
  | blank _ _ ih =>
    rw [List.length_cons, ← Nat.add_assoc, Nat.add_right_comm]
    exact ih
  | @token column written rest t ls hr h ih =>
    have hwidth : 0 < written.length := by
      obtain ⟨c, tail, rfl, -⟩ := hr.exists_cons
      exact Nat.succ_pos _
    rw [List.length_append, ← Nat.add_assoc]
    refine List.pairwise_cons.2 ⟨fun other hother ↦ ?_, ih⟩
    change column < other
    rcases List.mem_append.1 hother with hother | hother
    · obtain ⟨l, hl, rfl⟩ := List.mem_map.1 hother
      have := h.le_column l hl
      omega
    · have := List.mem_singleton.1 hother
      omega

end Stands

theorem stands_of_lexemes (h : lexemes text = .ok ls) : Stands 1 text.toList ls := by
  obtain ⟨before, after, ls', hdrop, hstands, ⟨hscan, rfl⟩ | ⟨cause, hscan, -⟩⟩ :=
    scan_ends 0 1 text.toList
  · cases hscan.symm.trans h
    rw [List.drop_zero, List.append_nil] at hdrop
    rwa [hdrop]
  · cases hscan.symm.trans h

/-- A token that was read is read again from its text. -/
theorem Reads.again (h : Reads written t rest) : Reads t.text.toList t [] := by
  cases h with
  | name hc hword =>
    simp only [Token.text, String.toList_ofList]
    exact .name hc hword .nil
  | number hn =>
    simp only [Token.text, String.toList_ofList]
    exact .number hn.self
  | mark hm => exact .mark hm .nil

theorem spells_spaced (h : ∀ t ∈ ts, Spells t.text.toList [t]) :
    Spells (" ".intercalate (ts.map Token.text)).toList ts := by
  induction ts with
  | nil => exact .nil
  | cons t ts ih =>
    obtain ⟨ht, hts⟩ := List.forall_mem_cons.1 h
    cases ts with
    | nil => simpa using ht
    | cons u ts =>
      have hall := ht.append_separator rfl (ih hts).space
      simpa [String.intercalate_cons_cons] using hall

/-- The lexemes of a text lose nothing of it. Blanks apart, the text is made of what is written for
them, each at its column. The columns ascend up to the one after the text, and the texts of the
tokens with single spaces between them have the same tokens. -/
theorem lexemes_lossless (h : lexemes text = .ok ls) :
    (∃ (pieces : List Piece) (last : List Char), pieces.map (·.lexeme) = ls ∧
        text.toList = pieces.flatMap Piece.chars ++ last ∧ (∀ c ∈ last, Text.isBlank c) ∧
        Piece.Aligned 1 pieces) ∧
      (ls.map (·.column) ++ [endColumn text]).Pairwise (· < ·) ∧
      endColumn text = text.toList.length + 1 ∧
      ∃ ls', lexemes (" ".intercalate (ls.map (·.token.text))) = .ok ls' ∧
        ls'.map (·.token) = ls.map (·.token) := by
  have hstands := stands_of_lexemes h
  have hend : endColumn text = text.toList.length + 1 := by
    rw [endColumn, String.length_toList]
  refine ⟨hstands.exists_pieces, ?_, hend, ?_⟩
  · rw [hend, Nat.add_comm]
    exact hstands.ascending
  · have hagain : ∀ t ∈ ls.map (·.token), Spells t.text.toList [t] := by
      intro t ht
      obtain ⟨written, rest, hr⟩ := hstands.spells.exists_reads ht
      exact hr.again.spells
    have hspaced := (spells_spaced hagain).lexemes
    rwa [List.map_map] at hspaced

def Sample.crowded : List Lexeme :=
  [⟨.number ".5e3", 1⟩, ⟨.operator .le, 6⟩, ⟨.operator .sub, 8⟩, ⟨.name "uv", 9⟩, ⟨.dot, 12⟩,
    ⟨.name "x", 13⟩]

theorem lexemes_lossless_crowded :
    lexemes ".5E3f<=-uv .x" = .ok Sample.crowded ∧
      (∃ (pieces : List Piece) (last : List Char), pieces.map (·.lexeme) = Sample.crowded ∧
        ['.', '5', 'E', '3', 'f', '<', '=', '-', 'u', 'v', ' ', '.', 'x'] =
          pieces.flatMap Piece.chars ++ last ∧
        (∀ c ∈ last, Text.isBlank c) ∧ Piece.Aligned 1 pieces) ∧
      ∃ ls, lexemes ".5e3 <= - uv . x" = .ok ls ∧
        ls.map (·.token) = Sample.crowded.map (·.token) := by
  have hlexemes : lexemes ".5E3f<=-uv .x" = .ok Sample.crowded := rfl
  obtain ⟨hpieces, -, -, hagain⟩ := lexemes_lossless hlexemes
  exact ⟨hlexemes, hpieces, hagain⟩

end NodeShader.Formula

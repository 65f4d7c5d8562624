import NodeShader.Proofs.Formula.Numeral

namespace NodeShader.Formula

variable {t : Token} {ts us : List Token} {cs xs ys : List Char} {c : Char} {w : Nat}

namespace Token

/-- Whether the character would become part of the token right before it. -/
def absorbs : Token → Char → Bool
  | name _, c => Text.isWordChar c
  | number _, c => Text.isWordChar c || c == '.'
  | dot, c => c.isDigit
  | bang, c | operator .lt, c | operator .gt, c => c == '='
  | _, _ => false

def isMark : Token → Bool
  | name _ | number _ => false
  | _ => true

end Token

inductive Reads : (written : List Char) → Token → (rest : List Char) → Prop
  | name {c cs rest} : isNameStart c → (∀ d ∈ c :: cs, Text.isWordChar d) →
      Shuns Text.isWordChar rest → Reads (c :: cs) (.name (String.ofList (c :: cs))) rest
  | number {written kept rest} : Numeral written kept rest →
      Reads written (.number (String.ofList kept)) rest
  | mark {t rest} : t.isMark → Shuns t.absorbs rest → Reads t.text.toList t rest

theorem reads_of_markAt (hs : startsNumber cs = false) (h : markAt cs = .ok (t, w)) :
    ∃ written rest, cs = written ++ rest ∧ written.length = w ∧ Reads written t rest := by
  suffices ∃ rest, cs = t.text.toList ++ rest ∧ t.text.toList.length = w ∧ t.isMark ∧
      Shuns t.absorbs rest by
    obtain ⟨rest, hcs, hw, hm, hr⟩ := this
    exact ⟨_, rest, hcs, hw, .mark hm hr⟩
  have hshort : ∀ tail : List Char, (∀ r, tail = '=' :: r → False) → Shuns (· == '=') tail := by
    intro tail htail
    cases tail <;> simp_all
  unfold markAt at h
  -- Only a dot and the marks that an equals sign would lengthen can absorb something.
  split at h <;> cases h <;> refine ⟨_, rfl, rfl, rfl, ?_⟩ <;> try exact fun c hc ↦ rfl
  · rename_i tail
    cases tail with
    | nil => exact .nil
    | cons c tail => exact shuns_cons.2 hs
  all_goals exact hshort _ (by assumption)

theorem isWordChar_of_isNameStart (h : isNameStart c) : Text.isWordChar c := by
  have h : c.isAlpha ∨ c = '_' := by simpa [isNameStart] using h
  rcases h with h | h <;> simp [Text.isWordChar, Char.isAlphanum, h]

theorem not_isNameStart_of_isDigit (h : c.isDigit) : isNameStart c = false := by
  by_contra hn
  have hc : c.isAlpha ∨ c = '_' := by simpa [isNameStart, -Bool.or_eq_false_iff] using hn
  rcases hc with hc | rfl
  · delta Char.isDigit at h
    delta Char.isAlpha Char.isUpper Char.isLower at hc
    grind
  · simp at h

theorem reads_of_tokenAt (h : tokenAt cs = .ok (t, w)) :
    ∃ written rest, cs = written ++ rest ∧ written.length = w ∧ Reads written t rest := by
  unfold tokenAt at h
  split at h
  · rename_i hname
    cases cs with
    | nil => simp at hname
    | cons c cs =>
      have hc : isNameStart c := by simpa using hname
      have hword := isWordChar_of_isNameStart hc
      cases h
      rw [List.takeWhile_cons, if_pos hword]
      refine ⟨c :: cs.takeWhile Text.isWordChar, cs.dropWhile Text.isWordChar, ?_, rfl, ?_⟩
      · rw [List.cons_append, List.takeWhile_append_dropWhile]
      · refine .name hc (fun d hd ↦ ?_) shuns_dropWhile
        rcases List.mem_cons.1 hd with rfl | hd
        · exact hword
        · exact List.mem_takeWhile_imp hd
  · split at h
    · rename_i hs
      obtain ⟨written, kept, rest, hcs, hw, rfl, hn⟩ := numeral_of_numberAt hs h
      exact ⟨written, rest, hcs, hw, .number hn⟩
    · rename_i hs
      exact reads_of_markAt (by simpa using hs) h

theorem tokenAt_mark (hm : t.isMark) (hr : Shuns t.absorbs cs) :
    tokenAt (t.text.toList ++ cs) = .ok (t, t.text.toList.length) := by
  cases t with
  | name s => cases hm
  | number s => cases hm
  | dot | bang =>
    cases cs <;>
      simp_all [tokenAt, Token.text, markAt, Token.absorbs, isNameStart, startsNumber]
  | operator op =>
    cases op with
    | lt | gt =>
      cases cs <;>
        simp_all [tokenAt, Token.text, BinaryOp.text, markAt, Token.absorbs, isNameStart,
          startsNumber]
    | _ => rfl
  | _ => rfl

theorem Reads.tokenAt {written rest : List Char} (h : Reads written t rest) :
    Formula.tokenAt (written ++ rest) = .ok (t, written.length) := by
  cases h with
  | @name c cs rest hc hword hr =>
    have htake := (takeWhile_append_of_shuns hword hr).1
    rw [Formula.tokenAt, if_pos (by simpa using hc), htake]
  | number hn =>
    obtain ⟨hs, hat⟩ := hn.numberAt
    have hname : ¬ (written ++ rest).head?.any isNameStart := by
      rcases startsNumber_cases hs with ⟨c, tail, hcs, hc⟩ | ⟨c, tail, hcs, hc⟩
      · simp [hcs, not_isNameStart_of_isDigit hc]
      · simp [hcs, isNameStart]
    rw [Formula.tokenAt, if_neg hname, if_pos hs, hat]
  | mark hm hr => exact tokenAt_mark hm hr

theorem not_isBlank_of_isWordChar (h : Text.isWordChar c) : Text.isBlank c = false := by
  have hc : c.isAlphanum ∨ c = '_' := by simpa [Text.isWordChar] using h
  rcases hc with hc | rfl
  · delta Char.isAlphanum Char.isAlpha Char.isUpper Char.isLower Char.isDigit at hc
    simp only [Bool.or_eq_true, Bool.and_eq_true, decide_eq_true_eq, UInt32.le_iff_toNat_le, ge_iff_le] at hc
    change ((65 ≤ c.toNat ∧ c.toNat ≤ 90) ∨ (97 ≤ c.toNat ∧ c.toNat ≤ 122)) ∨
      (48 ≤ c.toNat ∧ c.toNat ≤ 57) at hc
    simp only [Text.isBlank, Bool.or_eq_false_iff, Bool.and_eq_false_iff, beq_eq_false_iff_ne,
      decide_eq_false_iff_not]
    omega
  · rfl

namespace Reads

variable {written rest : List Char}

/-- A token stays what it is if it ended inside the text or does not absorb what now follows. -/
theorem append (h : Reads written t rest) (hy : rest ≠ [] ∨ Shuns t.absorbs ys) :
    Reads written t (rest ++ ys) := by
  cases h with
  | name hc hword hr => exact .name hc hword (hr.append hy)
  | number hn => exact .number (hn.append hy)
  | mark hm hr => exact .mark hm (hr.append hy)

theorem of_append (h : Reads written t (rest ++ ys)) : Reads written t rest := by
  cases h with
  | name hc hword hr => exact .name hc hword hr.of_append
  | number hn => exact .number hn.of_append
  | mark hm hr => exact .mark hm hr.of_append

theorem exists_cons (h : Reads written t rest) :
    ∃ c tail, written = c :: tail ∧ Text.isBlank c = false := by
  cases h with
  | name hc _ _ => exact ⟨_, _, rfl, not_isBlank_of_isWordChar (isWordChar_of_isNameStart hc)⟩
  | number hn =>
    obtain ⟨-, -, hs, -⟩ := hn
    rcases startsNumber_cases hs with ⟨c, tail, rfl, hc⟩ | ⟨c, tail, rfl, hc⟩
    · exact ⟨c, _, rfl, not_isBlank_of_isWordChar (isWordChar_of_isDigit hc)⟩
    · exact ⟨'.', _, rfl, rfl⟩
  | mark hm _ =>
    cases t with
    | name s | number s => cases hm
    | operator op => cases op <;> exact ⟨_, _, rfl, rfl⟩
    | _ => exact ⟨_, _, rfl, rfl⟩

end Reads

inductive Spells : List Char → List Token → Prop
  | nil : Spells [] []
  | blank {c : Char} {cs : List Char} {ts : List Token} : Text.isBlank c → Spells cs ts →
      Spells (c :: cs) ts
  | token {written rest : List Char} {t : Token} {ts : List Token} : Reads written t rest →
      Spells rest ts → Spells (written ++ rest) (t :: ts)

theorem scan_skip (skip column : Nat) (xs cs : List Char) (h : xs.length = skip) :
    scan skip column (xs ++ cs) = scan 0 (column + skip) cs := by
  induction xs generalizing skip column with
  | nil =>
    subst h
    rfl
  | cons x xs ih =>
    subst h
    simp only [List.cons_append, List.length_cons, scan]
    rw [ih _ _ rfl]
    congr 1
    omega

theorem Spells.scan (h : Spells cs ts) (column : Nat) :
    ∃ ls, Formula.scan 0 column cs = .ok ls ∧ ls.map (·.token) = ts := by
  induction h generalizing column with
  | nil => exact ⟨[], rfl, rfl⟩
  | blank hc _ ih =>
    obtain ⟨ls, hls, hts⟩ := ih (column + 1)
    refine ⟨ls, ?_, hts⟩
    simp [Formula.scan, hc, hls]
  | @token written rest t ts hr _ ih =>
    obtain ⟨c, tail, rfl, hc⟩ := hr.exists_cons
    obtain ⟨ls, hls, rfl⟩ := ih (column + 1 + tail.length)
    refine ⟨⟨t, column⟩ :: ls, ?_, rfl⟩
    have hat := hr.tokenAt
    rw [List.cons_append] at hat ⊢
    simp [Formula.scan, hc, hat, scan_skip tail.length (column + 1) tail rest rfl, hls]

inductive Stands : (column : Nat) → List Char → List Lexeme → Prop
  | nil {column} : Stands column [] []
  | blank {column c cs ls} : Text.isBlank c → Stands (column + 1) cs ls → Stands column (c :: cs) ls
  | token {column written rest t ls} : Reads written t rest →
      Stands (column + written.length) rest ls → Stands column (written ++ rest) (⟨t, column⟩ :: ls)

theorem Stands.spells {column : Nat} {ls : List Lexeme} (h : Stands column cs ls) :
    Spells cs (ls.map (·.token)) := by
  induction h with
  | nil => exact .nil
  | blank hc _ ih => exact .blank hc ih
  | token hr _ ih => exact .token hr ih

/-- The outcome of a scan of the text from a column on: it gets to the end, or to a place where no
token can be read. What stands before that place has been read, whatever follows. -/
def Reaches (column : Nat) (cs : List Char) (x : Except Error (List Lexeme)) : Prop :=
  ∃ before after ls, cs = before ++ after ∧ Stands column before ls ∧
    (x = .ok ls ∧ after = [] ∨
      ∃ cause, x = .error ⟨cause, column + before.length⟩ ∧ tokenAt after = .error cause)

theorem Reaches.blank {column : Nat} {c : Char} {x : Except Error (List Lexeme)}
    (hc : Text.isBlank c) (h : Reaches (column + 1) cs x) : Reaches column (c :: cs) x := by
  obtain ⟨before, after, ls, rfl, hstands, hscan⟩ := h
  refine ⟨c :: before, after, ls, rfl, .blank hc hstands, ?_⟩
  have hcolumn : column + 1 + before.length = column + (c :: before).length := by
    rw [List.length_cons]
    omega
  exact hcolumn ▸ hscan

theorem Reaches.token {column : Nat} {written rest : List Char} {x : Except Error (List Lexeme)}
    (hr : Reads written t rest) (h : Reaches (column + written.length) rest x) :
    Reaches column (written ++ rest) (x.map (⟨t, column⟩ :: ·)) := by
  obtain ⟨before, after, ls, rfl, hstands, hscan⟩ := h
  refine ⟨written ++ before, after, ⟨t, column⟩ :: ls, by simp, .token hr.of_append hstands, ?_⟩
  rcases hscan with ⟨rfl, hafter⟩ | ⟨cause, rfl, hat⟩
  · exact .inl ⟨rfl, hafter⟩
  · refine .inr ⟨cause, ?_, hat⟩
    rw [List.length_append, ← Nat.add_assoc]
    rfl

theorem scan_of_tokenAt {column width : Nat} {c : Char} (hc : ¬ Text.isBlank c)
    (hat : tokenAt (c :: cs) = .ok (t, width)) :
    scan 0 column (c :: cs) = (scan (width - 1) (column + 1) cs).map (⟨t, column⟩ :: ·) := by
  simp only [scan, hc, hat, Bool.false_eq_true, if_false]
  cases scan (width - 1) (column + 1) cs <;> rfl

theorem scan_ends (skip column : Nat) (cs : List Char) :
    Reaches (column + skip) (cs.drop skip) (scan skip column cs) := by
  induction cs generalizing skip column with
  | nil => exact ⟨[], [], [], by simp, .nil, .inl ⟨rfl, rfl⟩⟩
  | cons c cs ih =>
    cases skip with
    | succ skip =>
      have hrest := ih skip (column + 1)
      rwa [Nat.add_right_comm column 1, Nat.add_assoc column] at hrest
    | zero =>
      rw [Nat.add_zero, List.drop_zero]
      by_cases hc : Text.isBlank c
      · have hblank : scan 0 column (c :: cs) = scan 0 (column + 1) cs := by simp [scan, hc]
        exact .blank hc (hblank ▸ ih 0 (column + 1))
      cases hat : tokenAt (c :: cs) with
      | error cause => exact ⟨[], c :: cs, [], rfl, .nil, .inr ⟨cause, by simp [scan, hc, hat], hat⟩⟩
      | ok r =>
        obtain ⟨t, width⟩ := r
        rw [scan_of_tokenAt hc hat]
        obtain ⟨written, rest, hcs, rfl, hr⟩ := reads_of_tokenAt hat
        obtain ⟨d, tail, rfl, -⟩ := hr.exists_cons
        rw [List.cons_append] at hcs
        obtain ⟨rfl, rfl⟩ := List.cons.inj hcs
        have hrest := ih tail.length (column + 1)
        have hcolumn : column + 1 + tail.length = column + (c :: tail).length := by
          rw [List.length_cons]
          omega
        rw [List.drop_left, hcolumn] at hrest
        exact hrest.token hr

theorem spells_of_scan {skip column : Nat} {ls : List Lexeme} (h : scan skip column cs = .ok ls) :
    Spells (cs.drop skip) (ls.map (·.token)) := by
  obtain ⟨before, after, ls', hdrop, hstands, ⟨hscan, rfl⟩ | ⟨cause, hscan, -⟩⟩ :=
    scan_ends skip column cs
  · cases hscan.symm.trans h
    rw [hdrop, List.append_nil]
    exact hstands.spells
  · cases hscan.symm.trans h

theorem spells_nil_iff : Spells [] ts ↔ ts = [] := by
  constructor
  · intro h
    generalize hcs : ([] : List Char) = cs at h
    cases h with
    | nil => rfl
    | blank => cases hcs
    | token hr _ =>
      obtain ⟨c, tail, rfl, -⟩ := hr.exists_cons
      cases hcs
  · rintro rfl
    exact .nil

theorem Spells.append (h : Spells xs ts)
    (hy : ∀ t, ts.getLast? = some t → Shuns t.absorbs ys) (hys : Spells ys us) :
    Spells (xs ++ ys) (ts ++ us) := by
  induction h with
  | nil => exact hys
  | blank hc _ ih => exact .blank hc (ih hy)
  | @token written rest t ts hr hrest ih =>
    rw [List.append_assoc]
    cases ts with
    | nil => exact .token (hr.append (.inr (hy t rfl))) (ih nofun)
    | cons u ts =>
      have hne : rest ≠ [] := by
        rintro rfl
        exact List.cons_ne_nil u ts (spells_nil_iff.1 hrest)
      refine .token (hr.append (.inl hne)) (ih fun v hv ↦ hy v ?_)
      rwa [List.getLast?_cons_cons]

def Token.Lexable (t : Token) : Prop := ∃ text ls, lexemes text = .ok ls ∧ t ∈ ls.map (·.token)

theorem Spells.lexemes {text : String} (h : Spells text.toList ts) :
    ∃ ls, Formula.lexemes text = .ok ls ∧ ls.map (·.token) = ts := h.scan 1

theorem spells_of_lexemes {text : String} {ls : List Lexeme} (h : lexemes text = .ok ls) :
    Spells text.toList (ls.map (·.token)) := by
  simpa using spells_of_scan h

theorem Spells.exists_reads (h : Spells cs ts) (ht : t ∈ ts) :
    ∃ written rest, Reads written t rest := by
  induction h with
  | nil => cases ht
  | blank _ _ ih => exact ih ht
  | token hr _ ih =>
    rcases List.mem_cons.1 ht with rfl | ht
    · exact ⟨_, _, hr⟩
    · exact ih ht

theorem Reads.spells {written : List Char} (h : Reads written t []) : Spells written [t] := by
  simpa using Spells.token h .nil

theorem Token.Lexable.spells_name {x : String} (h : (Token.name x).Lexable) :
    Spells x.toList [.name x] := by
  obtain ⟨text, ls, hls, hmem⟩ := h
  obtain ⟨written, rest, hr⟩ := (spells_of_lexemes hls).exists_reads hmem
  cases hr with
  | name hc hword _ =>
    rw [String.toList_ofList]
    exact (Reads.name hc hword .nil).spells
  | mark hm _ => cases hm

theorem Token.Lexable.spells_number {n : String} (h : (Token.number n).Lexable) :
    Spells (floatText n).toList [.number (floatText n)] := by
  obtain ⟨text, ls, hls, hmem⟩ := h
  obtain ⟨written, rest, hr⟩ := (spells_of_lexemes hls).exists_reads hmem
  cases hr with
  | number hn =>
    have := (Reads.number hn.floatText).spells
    rwa [String.ofList_toList] at this
  | mark hm _ => cases hm

end NodeShader.Formula

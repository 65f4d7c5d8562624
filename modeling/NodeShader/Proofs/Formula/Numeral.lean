import NodeShader.Formula.Printer
import Mathlib.Data.List.TakeWhile

namespace NodeShader.Formula

def Shuns (p : Char → Bool) (cs : List Char) : Prop := ∀ c, cs.head? = some c → p c = false

variable {p q : Char → Bool} {t : Token} {cs xs ys : List Char} {c : Char} {w : Nat}

@[simp] theorem Shuns.nil : Shuns p [] := by simp [Shuns]

@[simp] theorem shuns_cons : Shuns p (c :: cs) ↔ p c = false := by simp [Shuns]

theorem Shuns.imp (h : Shuns q cs) (hpq : ∀ c, p c → q c) : Shuns p cs := by
  intro c hc
  have := h c hc
  have := hpq c
  grind

theorem Shuns.append (h : Shuns p cs) (hy : cs ≠ [] ∨ Shuns p ys) : Shuns p (cs ++ ys) := by
  cases cs <;> simp_all

theorem Shuns.append_append (h : Shuns p (xs ++ cs)) (hy : cs ≠ [] ∨ Shuns p ys) :
    Shuns p (xs ++ (cs ++ ys)) := by
  cases xs with
  | nil => exact h.append hy
  | cons x xs => exact shuns_cons.2 (shuns_cons.1 h)

theorem Shuns.of_append (h : Shuns p (cs ++ ys)) : Shuns p cs := by
  cases cs <;> simp_all

theorem takeWhile_append_of_shuns (hx : ∀ c ∈ xs, p c) (hy : Shuns p ys) :
    (xs ++ ys).takeWhile p = xs ∧ (xs ++ ys).dropWhile p = ys := by
  rw [List.takeWhile_append_of_pos hx, List.dropWhile_append_of_pos hx]
  cases ys <;> simp_all

theorem shuns_dropWhile : Shuns p (cs.dropWhile p) := by
  induction cs with
  | nil => simp
  | cons c cs ih => by_cases hc : p c <;> simp_all

inductive Exponent : (written kept rest : List Char) → Prop
  | none {rest} : Shuns (fun c ↦ c == 'e' || c == 'E') rest → Exponent [] [] rest
  | some {mark sign ds rest} : mark = 'e' ∨ mark = 'E' → sign ∈ [[], ['+'], ['-']] → ds ≠ [] →
      (∀ c ∈ ds, c.isDigit) → Shuns Char.isDigit rest →
      Exponent (mark :: (sign ++ ds)) ('e' :: (sign ++ ds)) rest

def exponentSign : List Char → List Char
  | '+' :: _ => ['+']
  | '-' :: _ => ['-']
  | _ => []

theorem exponentSign_cases (cs : List Char) :
    exponentSign cs ∈ [[], ['+'], ['-']] ∧
      exponentSign cs ++ cs.drop (exponentSign cs).length = cs := by
  unfold exponentSign
  split <;> simp

theorem exponentSign_append {sign ds rest : List Char} (hs : sign ∈ [[], ['+'], ['-']])
    (hne : ds ≠ []) (hds : ∀ c ∈ ds, c.isDigit) : exponentSign (sign ++ (ds ++ rest)) = sign := by
  obtain ⟨d, ds, rfl⟩ := List.exists_cons_of_ne_nil hne
  have hd : d.isDigit := hds d List.mem_cons_self
  have hs : sign = [] ∨ sign = ['+'] ∨ sign = ['-'] := by simpa using hs
  rcases hs with rfl | rfl | rfl
  · have hplus : d ≠ '+' := by rintro rfl; simp at hd
    have hminus : d ≠ '-' := by rintro rfl; simp at hd
    simp [exponentSign, hplus, hminus]
  · rfl
  · rfl

theorem exponentAt_of_mark (hc : c = 'e' ∨ c = 'E') (cs : List Char) :
    exponentAt (c :: cs) =
      let ds := (cs.drop (exponentSign cs).length).takeWhile Char.isDigit
      if ds.isEmpty then .error ('e' :: exponentSign cs)
      else .ok ('e' :: (exponentSign cs ++ ds), 1 + (exponentSign cs).length + ds.length) := by
  have hmark : (c == 'e' || c == 'E') = true := by simpa using hc
  simp only [exponentAt, hmark, if_true]
  split
  · rfl
  · rfl
  · rename_i hplus hminus
    rw [exponentSign]
    · rfl
    · exact hplus
    · exact hminus

theorem exponent_of_exponentAt {kept : List Char} (h : exponentAt cs = .ok (kept, w)) :
    ∃ written rest, cs = written ++ rest ∧ written.length = w ∧ Exponent written kept rest := by
  cases cs with
  | nil =>
    cases h
    exact ⟨[], [], rfl, rfl, .none .nil⟩
  | cons c cs =>
    by_cases hc : c = 'e' ∨ c = 'E'
    · rw [exponentAt_of_mark hc] at h
      obtain ⟨hsign, hsplit⟩ := exponentSign_cases cs
      set sign := exponentSign cs
      set ds := (cs.drop sign.length).takeWhile Char.isDigit with hds
      dsimp only at h
      split at h
      · cases h
      · rename_i hne
        cases h
        refine ⟨c :: (sign ++ ds), (cs.drop sign.length).dropWhile Char.isDigit, ?_, ?_, ?_⟩
        · rw [List.cons_append, List.append_assoc, hds, List.takeWhile_append_dropWhile, hsplit]
        · simp
          omega
        · exact .some hc hsign (by simpa using hne) (fun c hc ↦ List.mem_takeWhile_imp hc)
            shuns_dropWhile
    · have hmark : (c == 'e' || c == 'E') = false := by simpa using hc
      simp only [exponentAt, hmark] at h
      cases h
      exact ⟨[], c :: cs, rfl, rfl, .none (shuns_cons.2 hmark)⟩

theorem Exponent.exponentAt {written kept rest : List Char} (h : Exponent written kept rest) :
    Formula.exponentAt (written ++ rest) = .ok (kept, written.length) := by
  cases h with
  | none hr =>
    cases rest with
    | nil => rfl
    | cons c cs => simp [Formula.exponentAt, shuns_cons.1 hr]
  | @some mark sign ds _ hm hs hne hds hr =>
    have hsign : exponentSign (sign ++ (ds ++ rest)) = sign := exponentSign_append hs hne hds
    have htake := (takeWhile_append_of_shuns hds hr).1
    rw [List.cons_append, List.append_assoc, exponentAt_of_mark hm, hsign]
    simp only [List.drop_left, htake]
    simp [hne]
    omega

def isSuffix (c : Char) : Bool := c == 'f' || c == 'F'

/-- A number as it is written and as it is kept, in front of a text. -/
inductive Numeral : (written kept rest : List Char) → Prop
  | mk {body exponent kept suffix rest} : (∀ c ∈ body, isNumeric c) → body.count '.' ≤ 1 →
      startsNumber body → Shuns isNumeric (exponent ++ (suffix ++ rest)) →
      Exponent exponent kept (suffix ++ rest) →
      (suffix = [] ∧ Shuns isSuffix rest ∨ ∃ c, suffix = [c] ∧ isSuffix c) →
      Numeral (body ++ (exponent ++ suffix)) (body ++ kept) rest

theorem startsNumber_cases (h : startsNumber cs) :
    (∃ c tail, cs = c :: tail ∧ c.isDigit) ∨ ∃ c tail, cs = '.' :: c :: tail ∧ c.isDigit := by
  unfold startsNumber at h
  split at h
  · exact .inr ⟨_, _, rfl, h⟩
  · exact .inl ⟨_, _, rfl, h⟩
  · cases h

theorem startsNumber_of_digit (hc : c.isDigit) (cs : List Char) : startsNumber (c :: cs) := by
  have hdot : c ≠ '.' := by
    rintro rfl
    simp at hc
  unfold startsNumber
  split
  · rename_i heq
    exact absurd (List.cons.inj heq).1 hdot
  · rename_i heq
    exact (List.cons.inj heq).1 ▸ hc
  · contradiction

theorem startsNumber_takeWhile (h : startsNumber cs) : startsNumber (cs.takeWhile isNumeric) := by
  rcases startsNumber_cases h with ⟨c, tail, rfl, hc⟩ | ⟨c, tail, rfl, hc⟩
  · rw [List.takeWhile_cons, if_pos (by simp [isNumeric, hc])]
    exact startsNumber_of_digit hc _
  · simp [isNumeric, hc, startsNumber]

theorem startsNumber_append (h : startsNumber xs) (ys : List Char) : startsNumber (xs ++ ys) := by
  rcases startsNumber_cases h with ⟨c, tail, rfl, hc⟩ | ⟨c, tail, rfl, hc⟩
  · exact startsNumber_of_digit hc _
  · simpa [startsNumber] using hc

theorem drop_append_append (xs ys zs : List Char) :
    (xs ++ (ys ++ zs)).drop (xs.length + ys.length) = zs := by
  rw [← List.drop_drop, List.drop_left, List.drop_left]

theorem numeral_of_numberAt (hs : startsNumber cs) (h : numberAt cs = .ok (t, w)) :
    ∃ written kept rest, cs = written ++ rest ∧ written.length = w ∧
      t = .number (String.ofList kept) ∧ Numeral written kept rest := by
  unfold numberAt at h
  dsimp only at h
  split at h
  · cases h
  · rename_i kept width hexp
    obtain ⟨exponent, tail, hdrop, rfl, hexponent⟩ := exponent_of_exponentAt hexp
    have hends : Shuns isNumeric (exponent ++ tail) := hdrop ▸ shuns_dropWhile
    have hnumeric : ∀ c ∈ cs.takeWhile isNumeric, isNumeric c := fun c hc ↦
      List.mem_takeWhile_imp hc
    have hstarts := startsNumber_takeWhile hs
    have hcs : cs.takeWhile isNumeric ++ (exponent ++ tail) = cs := by
      rw [← hdrop, List.takeWhile_append_dropWhile]
    generalize cs.takeWhile isNumeric = body at h hends hnumeric hstarts hcs
    subst hcs
    rw [drop_append_append] at h
    split at h
    · cases h
    · rename_i hdots
      replace hdots : body.count '.' ≤ 1 := by omega
      cases h
      by_cases hsuffix : ∃ c rest, tail = c :: rest ∧ isSuffix c
      · obtain ⟨c, rest, rfl, hc⟩ := hsuffix
        have hnumeral : Numeral (_ ++ (_ ++ [c])) _ rest :=
          .mk hnumeric hdots hstarts hends hexponent (.inr ⟨c, rfl, hc⟩)
        refine ⟨_, _, rest, by simp, ?_, rfl, hnumeral⟩
        have hc : c = 'f' ∨ c = 'F' := by simpa [isSuffix] using hc
        rcases hc with rfl | rfl <;> simp <;> omega
      · have hshuns : Shuns isSuffix tail := by
          cases tail <;> simp_all
        have hnumeral : Numeral (_ ++ (_ ++ [])) _ tail :=
          .mk hnumeric hdots hstarts hends hexponent (.inl ⟨rfl, hshuns⟩)
        refine ⟨_, _, tail, by simp, ?_, rfl, hnumeral⟩
        split
        · simp [isSuffix] at hshuns
        · simp [isSuffix] at hshuns
        · simp

theorem Numeral.numberAt {written kept rest : List Char} (h : Numeral written kept rest) :
    startsNumber (written ++ rest) ∧
      Formula.numberAt (written ++ rest) = .ok (.number (String.ofList kept), written.length) := by
  obtain @⟨body, exponent, kept, suffix, _, hnumeric, hdots, hstarts, hends, hexponent, hsuffix⟩ := h
  have hassoc : body ++ (exponent ++ suffix) ++ rest = body ++ (exponent ++ (suffix ++ rest)) := by
    simp
  obtain ⟨htake, hdrop⟩ := takeWhile_append_of_shuns hnumeric hends
  rw [hassoc]
  refine ⟨startsNumber_append hstarts _, ?_⟩
  simp only [Formula.numberAt, htake, hdrop, hexponent.exponentAt, drop_append_append]
  rw [if_neg (by omega)]
  rcases hsuffix with ⟨rfl, hshuns⟩ | ⟨c, rfl, hc⟩
  · rw [List.nil_append]
    split
    · simp [isSuffix] at hshuns
    · simp [isSuffix] at hshuns
    · simp
  · have hc : c = 'f' ∨ c = 'F' := by simpa [isSuffix] using hc
    rcases hc with rfl | rfl <;> simp <;> omega

theorem isWordChar_of_isDigit (h : c.isDigit) : Text.isWordChar c := by
  simp [Text.isWordChar, Char.isAlphanum, h]

theorem Exponent.append {written kept rest : List Char} (h : Exponent written kept (xs ++ rest))
    (hy : rest ≠ [] ∨ Shuns Text.isWordChar ys) : Exponent written kept (xs ++ (rest ++ ys)) := by
  cases h with
  | none hr =>
    refine .none (hr.append_append (hy.imp_right fun hs ↦ hs.imp fun c hc ↦ ?_))
    have hc : c = 'e' ∨ c = 'E' := by simpa using hc
    rcases hc with rfl | rfl <;> rfl
  | some hm hs hne hds hr =>
    exact .some hm hs hne hds
      (hr.append_append (hy.imp_right fun hs ↦ hs.imp fun c hc ↦ isWordChar_of_isDigit hc))

theorem Exponent.of_append {written kept rest : List Char} (h : Exponent written kept (rest ++ ys)) :
    Exponent written kept rest := by
  cases h with
  | none hr => exact .none hr.of_append
  | some hm hs hne hds hr => exact .some hm hs hne hds hr.of_append

theorem Numeral.append {written kept rest : List Char} (h : Numeral written kept rest)
    (hy : rest ≠ [] ∨ Shuns (fun c ↦ Text.isWordChar c || c == '.') ys) :
    Numeral written kept (rest ++ ys) := by
  obtain @⟨body, exponent, kept, suffix, _, hnumeric, hdots, hstarts, hends, hexponent, hsuffix⟩ := h
  have hword : rest ≠ [] ∨ Shuns Text.isWordChar ys :=
    hy.imp_right fun hs ↦ hs.imp fun c hc ↦ by simp [hc]
  refine .mk hnumeric hdots hstarts ?_ (hexponent.append hword) (hsuffix.imp_left ?_)
  · rw [← List.append_assoc] at hends ⊢
    refine hends.append_append (hy.imp_right fun hs ↦ hs.imp fun c hc ↦ ?_)
    have hc : c.isDigit ∨ c = '.' := by simpa [isNumeric] using hc
    rcases hc with hc | rfl
    · simp [isWordChar_of_isDigit hc]
    · rfl
  · rintro ⟨rfl, hr⟩
    refine ⟨rfl, hr.append (hword.imp_right fun hs ↦ hs.imp fun c hc ↦ ?_)⟩
    have hc : c = 'f' ∨ c = 'F' := by simpa [isSuffix] using hc
    rcases hc with rfl | rfl <;> rfl

/-- What follows a number may be cut short. -/
theorem Numeral.of_append {written kept rest : List Char} (h : Numeral written kept (rest ++ ys)) :
    Numeral written kept rest := by
  obtain @⟨body, exponent, kept, suffix, _, hnumeric, hdots, hstarts, hends, hexponent, hsuffix⟩ := h
  rw [← List.append_assoc, ← List.append_assoc, List.append_assoc exponent] at hends
  rw [← List.append_assoc] at hexponent
  exact .mk hnumeric hdots hstarts hends.of_append hexponent.of_append
    (hsuffix.imp_left fun ⟨hnil, hshuns⟩ ↦ ⟨hnil, hshuns.of_append⟩)

theorem Numeral.self {written kept rest : List Char} (h : Numeral written kept rest) :
    Numeral kept kept [] := by
  obtain ⟨hnumeric, hdots, hstarts, -, hexponent, -⟩ := h
  have hsuffix : ([] : List Char) = [] ∧ Shuns isSuffix [] ∨ ∃ c, [] = [c] ∧ isSuffix c :=
    .inl ⟨rfl, .nil⟩
  cases hexponent with
  | none => simpa using Numeral.mk hnumeric hdots hstarts .nil (.none .nil) hsuffix
  | some _ hs hne hds _ =>
    have hkept := Exponent.some (.inl rfl) hs hne hds .nil
    simpa using Numeral.mk hnumeric hdots hstarts (shuns_cons.2 rfl) hkept hsuffix

/-- After an exponent a dot begins another token. -/
theorem Numeral.before_dot {written kept rest : List Char} (h : Numeral written kept rest)
    (he : 'e' ∈ kept) (cs : List Char) : Numeral kept kept ('.' :: cs) := by
  obtain ⟨hnumeric, hdots, hstarts, -, hexponent, -⟩ := h
  cases hexponent with
  | none =>
    rw [List.append_nil] at he
    cases hnumeric _ he
  | some _ hs hne hds _ =>
    have hkept := Exponent.some (.inl rfl) hs hne hds (shuns_cons.2 rfl : Shuns _ ('.' :: cs))
    simpa using Numeral.mk hnumeric hdots hstarts (shuns_cons.2 rfl) hkept
      (.inl ⟨rfl, shuns_cons.2 rfl⟩)

theorem Numeral.floatText {written kept rest : List Char} (h : Numeral written kept rest) :
    Numeral (Formula.floatText (String.ofList kept)).toList
      (Formula.floatText (String.ofList kept)).toList [] := by
  unfold Formula.floatText
  rw [String.toList_ofList]
  split
  · rw [String.toList_ofList]
    exact h.self
  · rename_i hplain
    rw [String.toList_append, String.toList_ofList]
    obtain @⟨body, _, _, _, _, hnumeric, -, hstarts, -, hexponent, -⟩ := h
    cases hexponent with
    | some => simp at hplain
    | none =>
      rw [List.append_nil] at hplain ⊢
      have hdot : body.count '.' = 0 := by
        rw [List.count_eq_zero]
        intro hmem
        exact hplain (List.any_eq_true.2 ⟨'.', hmem, rfl⟩)
      have hzero : ∀ c ∈ body ++ ['.', '0'], isNumeric c := by
        intro c hc
        rcases List.mem_append.1 hc with hc | hc
        · exact hnumeric c hc
        · simp only [List.mem_cons, List.not_mem_nil, or_false] at hc
          rcases hc with rfl | rfl <;> rfl
      simpa using Numeral.mk hzero (by simp [hdot]) (startsNumber_append hstarts ['.', '0'])
        .nil (.none .nil) (.inl ⟨rfl, .nil⟩)

end NodeShader.Formula

import NodeShader.Dict
import NodeShader.Proofs.Formula.Levels

namespace NodeShader.Formula

variable {e : Formula} {bound : String → Option String} {source : String}

theorem printable_of_parts (hspliced : ∀ text, spliced text ∉ e.parts)
    (hwords : ∀ t ∈ e.words, t.Lexable) (hmember : ∀ n field, member (number n) field ∉ e.parts) :
    Printable 0 spliced e := by
  refine ⟨hwords, fun text htext ↦ absurd htext (hspliced text), ?_⟩
  rintro base field hbase n (⟨m, rfl⟩ | ⟨text, rfl, -⟩)
  · exact hmember m field hbase
  · exact hspliced text (parts_trans hbase (.tail _ (self_mem_parts _)))

/-- A printed expression is read back as itself, with a decimal point in every number, or nests too
deeply. It never does if it is no higher than half of the nesting that is allowed. -/
theorem parse_print (hspliced : ∀ text, spliced text ∉ e.parts) (hwords : ∀ t ∈ e.words, t.Lexable)
    (hmember : ∀ n field, member (number n) field ∉ e.parts) :
    (parse e.print = .ok e.floated ∨ ∃ column, parse e.print = .error ⟨.tooDeep, column⟩) ∧
      (2 * e.height ≤ maxNesting → parse e.print = .ok e.floated) := by
  obtain ⟨ts, hs, hd, -⟩ := (printable_of_parts hspliced hwords hmember).shows 0
  have hparse := parse_of_derives hs hd
  constructor
  · exact hparse.imp_right And.right
  · intro hheight
    exact hparse.resolve_right fun hdeep ↦ by omega

theorem lexable_of_parse (h : parse source = .ok e) {t : Token} (ht : t ∈ e.words) : t.Lexable := by
  obtain ⟨ts, hs, hd⟩ := derives_of_parse h
  obtain ⟨ls, hls, rfl⟩ := hs.lexemes
  exact ⟨source, ls, hls, hd.mem_of_mem_words ht⟩

theorem not_spliced_of_parse (h : parse source = .ok e) (text : String) : spliced text ∉ e.parts := by
  obtain ⟨ts, -, hd⟩ := derives_of_parse h
  exact hd.not_spliced text

def Sample.formula : Formula :=
  .conditional (.binary .lt (.name "a") (.number "1"))
    (.binary .sub (.name "a") (.binary .sub (.name "b") (.number ".5")))
    (.unary .minus (.unary .not (.call "f" [.member (.name "v") "x", .number "3e2"])))

theorem parse_print_sample :
    Sample.formula.print = "a < 1.0 ? a - (b - .5) : -(!f(v.x, 3e2))" ∧
      parse Sample.formula.print = .ok Sample.formula.floated := by
  have hparse : parse "a < 1 ? a - (b - .5) : -(!f(v.x, 3e2))" = .ok Sample.formula := rfl
  refine ⟨rfl, (parse_print (not_spliced_of_parse hparse) (fun t ↦ lexable_of_parse hparse) ?_).2 ?_⟩
  · simp [Sample.formula, parts, partsAll]
  · decide

theorem readable_of_parse (hs : parse source = .ok e)
    (hmember : ∀ n field, member (number n) field ∈ e.parts → 'e' ∈ n.toList) :
    Readable 0 spliced e := by
  refine ⟨fun t ht ↦ lexable_of_parse hs ht,
    fun text htext ↦ absurd htext (not_spliced_of_parse hs text), ?_⟩
  rintro base field hbase n (⟨m, rfl⟩ | ⟨text, rfl, -⟩)
  · exact ⟨m, rfl, hmember m field hbase⟩
  · exact absurd (parts_trans hbase (.tail _ (self_mem_parts _))) (not_spliced_of_parse hs text)

/-- What was read can be read again once it is printed, unless it then nests too deeply. The text it
was read from may nest as deeply as is allowed less the signs right under signs, as only these are
grouped without need. -/
theorem parse_reprint {ls : List Lexeme} (hlexemes : lexemes source = .ok ls)
    (hs : parse source = .ok e)
    (hmember : ∀ n field, member (number n) field ∈ e.parts → 'e' ∈ n.toList) :
    (parse e.print = .ok e.floated ∨ ∃ column, parse e.print = .error ⟨.tooDeep, column⟩) ∧
      (∀ depth, Derives .whole depth (ls.map (·.token)) e → depth + e.stack ≤ maxNesting →
        parse e.print = .ok e.floated) ∧
      (e.stack = 0 → parse e.print = .ok e.floated) := by
  obtain ⟨ts, hspells, hd, -⟩ := (readable_of_parse hs hmember).shows 0
  have hparse := parse_of_derives hspells hd
  have hlevels : ∀ depth, Derives .whole depth (ls.map (·.token)) e → depth + e.stack ≤ maxNesting →
      parse e.print = .ok e.floated := by
    intro depth hsource hroom
    have hwhole := enclosed_le_whole 0 e (levels 0 e)
    have hle := Nat.le_trans hwhole hsource.levels_le
    exact hparse.resolve_right fun hdeep ↦ by omega
  refine ⟨hparse.imp_right And.right, hlevels, fun hstack ↦ ?_⟩
  obtain ⟨ls', hls', hread⟩ := bind_eq_ok.1 hs
  cases hlexemes.symm.trans hls'
  exact hlevels maxNesting (derives_of_ofLexemes hread) (by omega)

def Sample.signed : Formula :=
  .binary .mul (.unary .minus (.unary .minus (.member (.number "1e3") "x"))) (.name "a")

theorem parse_reprint_signed :
    parse "- -1e3 .x * (a)" = .ok Sample.signed ∧ Sample.signed.print = "-(-1e3.x) * a" ∧
      parse Sample.signed.print = .ok Sample.signed.floated := by
  have hs : parse "- -1e3 .x * (a)" = .ok Sample.signed := rfl
  have hlexemes : lexemes "- -1e3 .x * (a)" = .ok [⟨.operator .sub, 1⟩, ⟨.operator .sub, 3⟩,
    ⟨.number "1e3", 4⟩, ⟨.dot, 8⟩, ⟨.name "x", 9⟩, ⟨.operator .mul, 11⟩, ⟨.openParen, 13⟩,
    ⟨.name "a", 14⟩, ⟨.closeParen, 15⟩] := rfl
  have hlhs : Derives (.chain 7) 2 [.operator .sub, .operator .sub, .number "1e3", .dot, .name "x"]
      (.unary .minus (.unary .minus (.member (.number "1e3") "x"))) :=
    .operand 7 (.sign rfl (.sign rfl (.path (.member "x" (.primary (.number "1e3"))))))
  have hrhs : Derives (.chain 8) 2 [.openParen, .name "a", .closeParen] (.name "a") :=
    .operand 8 (.path (.primary (.group (.chain (.operand 2 (.path (.primary (.name "a"))))))))
  refine ⟨hs, rfl, (parse_reprint hlexemes hs ?_).2.1 3 ?_ (by decide)⟩
  · intro n field hmem
    have hn : n = "1e3" := by simp_all [Sample.signed, parts]
    rw [hn]
    decide
  · exact .chain (.binary .mul (by decide) hlhs hrhs)

theorem parse_ofList (cs : List Char) :
    parse (String.ofList cs) = scan 0 1 cs >>= ofLexemes (cs.length + 1) := by
  rw [parse, lexemes, endColumn, ← String.length_toList, String.toList_ofList]

def Sample.negated : Nat → Formula
  | 0 => .name "x"
  | n + 1 => .unary .minus (negated n)

def Sample.tower : Nat → List Char
  | 0 => ['x']
  | n + 1 => '(' :: '-' :: (tower n ++ [')'])

theorem render_negated (n : Nat) : render 9 (Sample.negated n) = String.ofList (Sample.tower n) := by
  induction n with
  | zero => rfl
  | succ n ih =>
    have hrender : render 9 (Sample.negated (n + 1)) =
        parenthesize ("-" ++ render 9 (Sample.negated n)) := rfl
    rw [hrender, ih, ← String.toList_inj]
    simp [parenthesize, Sample.tower]

set_option maxRecDepth 4000 in
/-- Of sixty-five signs in a row, each but the first is printed in parentheses, which nest too
deeply. -/
theorem reprint_too_deep :
    parse (String.ofList (List.replicate 65 '-' ++ ['x'])) = .ok (Sample.negated 65) ∧
      ∀ e, parse (Sample.negated 65).print ≠ .ok e := by
  have hprint : (Sample.negated 65).print = String.ofList ('-' :: Sample.tower 64) := by
    have hrender : (Sample.negated 65).print = "-" ++ render 9 (Sample.negated 64) := rfl
    rw [hrender, render_negated, ← String.toList_inj]
    simp
  have hdeep : scan 0 1 ('-' :: Sample.tower 64) >>= ofLexemes 195 = .error ⟨.tooDeep, 129⟩ := rfl
  constructor
  · rw [parse_ofList]
    rfl
  · intro e he
    rw [hprint, parse_ofList] at he
    cases he.symm.trans hdeep

/-- A blank keeps a whole number apart from the point of a member, but it is printed without one. -/
theorem reprint_member_of_number :
    parse "1 .x" = .ok (member (number "1") "x") ∧
      ∀ e, parse (member (number "1") "x").print ≠ .ok e := by
  have hprint : (member (number "1") "x").print = "1.0.x" := rfl
  have hread : parse "1.0.x" = .error ⟨.malformedNumber "1.0.", 1⟩ := rfl
  refine ⟨rfl, fun e he ↦ ?_⟩
  rw [hprint, hread] at he
  cases he

def tree? (text : String) : Option Formula := (parse text).toOption

theorem tree?_of_parse {text : String} (h : parse text = .ok e) : tree? text = some e := by
  rw [tree?, h]
  rfl

theorem substitute_eq_number {n : String} (h : e.substitute bound = number n) : e = number n := by
  cases e with
  | name x => cases hx : bound x <;> simp [substitute, hx] at h
  | number m => exact h
  | _ => cases h

theorem substitute_eq_spliced {text : String} (h : e.substitute bound = spliced text) :
    (∃ x, e = name x ∧ bound x = some text) ∨ e = spliced text := by
  cases e with
  | name x => cases hx : bound x <;> simp_all [substitute]
  | spliced text => exact .inr h
  | _ => cases h

theorem substitute_eq_member {base : Formula} {field : String}
    (h : e.substitute bound = member base field) :
    ∃ base', e = member base' field ∧ base = base'.substitute bound := by
  cases e with
  | name x => cases hx : bound x <;> simp [substitute, hx] at h
  | member base' field' =>
    cases h
    exact ⟨base', rfl, rfl⟩
  | _ => cases h

theorem printable_substitute (hs : parse source = .ok e)
    (hb : ∀ x text, bound x = some text → ∃ e', parse text = .ok e')
    (hm : ∀ base field, member base field ∈ e.parts → (∀ n, base ≠ number n) ∧
      ∀ x text, base = name x → bound x = some text →
        ∀ n column, lexemes text ≠ .ok [⟨.number n, column⟩]) :
    Printable maxNesting (fun text ↦ (tree? text).getD default) (e.substitute bound) := by
  have hspliced : ∀ p ∈ e.parts, ∀ text, p.substitute bound = spliced text →
      ∃ x, p = name x ∧ bound x = some text := fun p hp text htext ↦
    (substitute_eq_spliced htext).resolve_right fun h ↦ not_spliced_of_parse hs text (h ▸ hp)
  refine ⟨fun t ht ↦ lexable_of_parse hs (words_substitute ht), fun text htext ↦ ?_, ?_⟩
  · rw [parts_substitute] at htext
    obtain ⟨p, hp, heq⟩ := List.mem_map.1 htext
    obtain ⟨x, -, hx⟩ := hspliced p hp text heq
    obtain ⟨e', he'⟩ := hb x text hx
    rw [tree?_of_parse he']
    exact derives_of_parse he'
  · intro base field hbase n hnumeral
    rw [parts_substitute] at hbase
    obtain ⟨p, hp, heq⟩ := List.mem_map.1 hbase
    obtain ⟨base', rfl, rfl⟩ := substitute_eq_member heq
    obtain ⟨hnumber, hname⟩ := hm base' field hp
    have hbase' : base' ∈ e.parts := parts_trans hp (.tail _ (self_mem_parts _))
    rcases hnumeral with ⟨m, hm⟩ | ⟨text, htext, htoken⟩
    · exact hnumber m (substitute_eq_number hm)
    · obtain ⟨x, rfl, hx⟩ := hspliced base' hbase' text htext
      obtain ⟨ls, hls, hmap⟩ := htoken.lexemes
      obtain ⟨⟨t, column⟩, rfl, rfl⟩ := List.map_eq_singleton_iff.1 hmap
      exact hname x text rfl hx n column hls

/-- What is put in place of a name means the same as its tree: the text is read back as the tree of
the source with the trees of the bound texts grafted in, or nests too deeply. -/
theorem parse_toGlsl (hs : parse source = .ok e)
    (hb : ∀ x text, bound x = some text → ∃ e', parse text = .ok e')
    (hm : ∀ base field, member base field ∈ e.parts → (∀ n, base ≠ number n) ∧
      ∀ x text, base = name x → bound x = some text →
        ∀ n column, lexemes text ≠ .ok [⟨.number n, column⟩]) :
    ∃ text, toGlsl source bound = .ok text ∧
      ((∃ e', parse text = .ok e' ∧
          e'.floated = (e.graft fun x ↦ (bound x).bind tree?).floated) ∨
        ∃ column, parse text = .error ⟨.tooDeep, column⟩) := by
  refine ⟨(e.substitute bound).print, by rw [toGlsl, hs]; rfl, ?_⟩
  obtain ⟨ts, hspells, hd, -⟩ := (printable_substitute hs hb hm).shows 0
  refine (parse_of_derives hspells hd).imp (fun hparse ↦ ⟨_, hparse, ?_⟩) And.right
  rw [replace_substitute, floated_replace, graft, floated_replace]
  refine replace_congr (fun n ↦ ?_) (fun x ↦ ?_) fun text htext ↦
    absurd htext (not_spliced_of_parse hs text)
  · simp [floated, replace, floatText_floatText]
  · cases hx : bound x with
    | none => rfl
    | some text =>
      obtain ⟨e', he'⟩ := hb x text hx
      simp [tree?_of_parse he']

def Sample.bindings : List (String × String) :=
  [("x", "p ? q : r"), ("n", "-1.5e-3f"), ("a", "v.zyx")]

def Sample.scaled : Formula :=
  .binary .sub (.binary .mul (.unary .minus (.member (.name "x") "y"))
    (.binary .sub (.name "n") (.member (.name "a") "z"))) (.name "n")

theorem parse_toGlsl_sample :
    ∃ e', parse "-x.y * (n - a.z) - n" = .ok Sample.scaled ∧
      toGlsl "-x.y * (n - a.z) - n" (lookup · Sample.bindings) =
        .ok "-(p ? q : r).y * ((-1.5e-3f) - v.zyx.z) - (-1.5e-3f)" ∧
      parse "-(p ? q : r).y * ((-1.5e-3f) - v.zyx.z) - (-1.5e-3f)" = .ok e' ∧
      e'.floated = (Sample.scaled.graft fun x ↦ (lookup x Sample.bindings).bind tree?).floated := by
  have hs : parse "-x.y * (n - a.z) - n" = .ok Sample.scaled := rfl
  have hglsl : toGlsl "-x.y * (n - a.z) - n" (lookup · Sample.bindings) =
      .ok "-(p ? q : r).y * ((-1.5e-3f) - v.zyx.z) - (-1.5e-3f)" := by
    rw [toGlsl, hs]
    rfl
  have hread : ∀ b ∈ Sample.bindings, (parse b.2).isOk := by decide
  have hlong : ∀ b ∈ Sample.bindings, (lexemes b.2).map List.length ≠ .ok 1 := by decide
  obtain ⟨text, htext, hparse⟩ := parse_toGlsl hs
    (fun x text hx ↦ exists_of_isOk (hread (x, text) (mem_of_lookup hx)))
    (by
      intro base field hmem
      have hbase : ∃ x, base = name x := by
        simp only [Sample.scaled, parts, List.mem_cons] at hmem
        grind
      obtain ⟨x, rfl⟩ := hbase
      refine ⟨fun _ h ↦ (by cases h), ?_⟩
      rintro x text ⟨⟩ hx n column hlex
      have := hlong (x, text) (mem_of_lookup hx)
      rw [hlex] at this
      exact this rfl)
  obtain rfl := Except.ok.inj (htext.symm.trans hglsl)
  rcases hparse with ⟨e', he', hfloated⟩ | ⟨column, hdeep⟩
  · exact ⟨e', hs, hglsl, he', hfloated⟩
  · have hok : (parse "-(p ? q : r).y * ((-1.5e-3f) - v.zyx.z) - (-1.5e-3f)").isOk := by decide
    rw [hdeep] at hok
    cases hok

end NodeShader.Formula

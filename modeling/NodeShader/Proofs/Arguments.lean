import NodeShader.CommandLine
import Mathlib.Data.List.Induction

namespace NodeShader.CommandLine

inductive Name where
  | graph
  | preview
  | config
  | out
deriving DecidableEq

def Name.flag : Name → String
  | graph => "--graph"
  | preview => "--preview"
  | config => "--config"
  | out => "--out"

inductive Segment where
  | option (name : Name) (value : String)
  | validate
deriving DecidableEq

namespace Segment

def arguments : Segment → List String
  | option name value => [name.flag, value]
  | validate => ["--validate"]

def value? (name : Name) : Segment → Option String
  | option other value => if other = name then some value else none
  | validate => none

/-- The value in the last of some segments that have one for the option. -/
def last? (name : Name) (segments : List Segment) : Option String :=
  (segments.filterMap (value? name)).getLast?

end Segment

def Options.ofSegments (segments : List Segment) : Options where
  graph := Segment.last? .graph segments
  preview := Segment.last? .preview segments
  config := Segment.last? .config segments
  out := Segment.last? .out segments
  validate := Segment.validate ∈ segments

/-- Why no segment begins with an argument that has `rest` behind it. -/
inductive Blames (arg : String) : (rest : List String) → UsageError → Prop
  | unknown {rest : List String} (hname : ∀ name : Name, arg ≠ name.flag)
      (hvalidate : arg ≠ "--validate") : Blames arg rest (.unknown arg)
  | incomplete (name : Name) (h : arg = name.flag) : Blames arg [] (.missingValue arg)

namespace Options

variable {o : Options} {arg flag value : String} {rest : List String} {e : UsageError}

def take (o : Options) : Segment → Options
  | .option .graph value => { o with graph := some value }
  | .option .preview value => { o with preview := some value }
  | .option .config value => { o with config := some value }
  | .option .out value => { o with out := some value }
  | .validate => { o with validate := true }

theorem set?_flag (o : Options) (name : Name) (value : String) :
    o.set? name.flag value = some (o.take (.option name value)) := by
  cases name <;> rfl

theorem set?_of_ne (h : ∀ name : Name, flag ≠ name.flag) : o.set? flag value = none := by
  unfold set?
  split
  · exact absurd rfl (h .graph)
  · exact absurd rfl (h .preview)
  · exact absurd rfl (h .config)
  · exact absurd rfl (h .out)
  · rfl

theorem takesValue_flag (name : Name) : takesValue name.flag := by
  cases name <;> decide

theorem takesValue_of_ne (h : ∀ name : Name, flag ≠ name.flag) : takesValue flag = false := by
  have hgraph := h .graph
  have hpreview := h .preview
  have hconfig := h .config
  have hout := h .out
  simp_all [takesValue, Name.flag]

theorem flag_ne_validate (name : Name) : name.flag ≠ "--validate" := by
  cases name <;> decide

theorem read_segment (o : Options) (segment : Segment) (rest : List String) :
    o.read (segment.arguments ++ rest) = (o.take segment).read rest := by
  cases segment with
  | option name value =>
    simp only [Segment.arguments, List.cons_append, List.nil_append, read, flag_ne_validate, if_false,
      set?_flag]
  | validate => cases rest <;> simp [Segment.arguments, read, take]

theorem read_segments (o : Options) (segments : List Segment) (rest : List String) :
    o.read (segments.flatMap Segment.arguments ++ rest) = (segments.foldl take o).read rest := by
  induction segments generalizing o with
  | nil => rfl
  | cons segment segments ih =>
    rw [List.flatMap_cons, List.append_assoc, read_segment, ih, List.foldl_cons]

theorem read_of_blames (h : Blames arg rest e) : o.read (arg :: rest) = .error e := by
  cases h with
  | unknown hname hvalidate =>
    cases rest with
    | nil => simp [read, hvalidate, takesValue_of_ne hname]
    | cons value rest => simp [read, hvalidate, set?_of_ne hname]
  | incomplete name h =>
    subst h
    simp [read, flag_ne_validate, takesValue_flag]

theorem last?_concat (name : Name) (segments : List Segment) (segment : Segment) :
    Segment.last? name (segments ++ [segment]) =
      (segment.value? name).or (Segment.last? name segments) := by
  cases h : segment.value? name <;> simp [Segment.last?, h]

theorem ofSegments_concat (segments : List Segment) (segment : Segment) :
    ofSegments (segments ++ [segment]) = (ofSegments segments).take segment := by
  cases segment with
  | option name value => cases name <;> simp [ofSegments, take, last?_concat, Segment.value?]
  | validate => simp [ofSegments, take, last?_concat, Segment.value?]

theorem foldl_take (segments : List Segment) : segments.foldl take {} = ofSegments segments := by
  induction segments using List.reverseRecOn with
  | nil => rfl
  | append_singleton segments segment ih =>
    rw [List.foldl_append, ih, ofSegments_concat, List.foldl_cons, List.foldl_nil]

end Options

theorem parse_segments (segments : List Segment) (rest : List String) :
    parse (segments.flatMap Segment.arguments ++ rest) = (Options.ofSegments segments).read rest := by
  rw [parse, Options.read_segments, Options.foldl_take]

theorem infix_between (before arg after : String) :
    arg.toList <:+: (before ++ arg ++ after).toList := by
  rw [String.toList_append, String.toList_append]
  exact List.infix_append _ _ _

theorem Blames.mentioned {arg : String} {rest : List String} {e : UsageError} (h : Blames arg rest e) :
    arg.toList <:+: e.message.toList := by
  cases h with
  | unknown hname hvalidate =>
    have hmessage := infix_between "unknown argument: " arg (" (" ++ usage ++ ")")
    rwa [← String.append_assoc, ← String.append_assoc] at hmessage
  | incomplete name h =>
    have hmessage := infix_between "missing value for " arg ""
    rwa [String.append_empty] at hmessage

theorem flag_or_unknown (arg : String) :
    (∃ name : Name, arg = name.flag) ∨ arg = "--validate" ∨
      ((∀ name : Name, arg ≠ name.flag) ∧ arg ≠ "--validate") := by
  by_cases hname : ∃ name : Name, arg = name.flag
  · exact .inl hname
  · by_cases hvalidate : arg = "--validate"
    · exact .inr (.inl hvalidate)
    · exact .inr (.inr ⟨not_exists.1 hname, hvalidate⟩)

/-- Every list of arguments begins with segments, up to its end or an argument to blame. -/
theorem exists_segments (args : List String) : ∃ (segments : List Segment) (rest : List String),
    args = segments.flatMap Segment.arguments ++ rest ∧
      (rest = [] ∨ ∃ arg tail e, rest = arg :: tail ∧ Blames arg tail e) := by
  induction args using List.twoStepInduction with
  | nil => exact ⟨[], [], rfl, .inl rfl⟩
  | singleton arg =>
    rcases flag_or_unknown arg with ⟨name, hname⟩ | rfl | ⟨hname, hvalidate⟩
    · exact ⟨[], [arg], rfl, .inr ⟨arg, [], _, rfl, .incomplete name hname⟩⟩
    · exact ⟨[.validate], [], rfl, .inl rfl⟩
    · exact ⟨[], [arg], rfl, .inr ⟨arg, [], _, rfl, .unknown hname hvalidate⟩⟩
  | cons_cons arg value args ih ih' =>
    rcases flag_or_unknown arg with ⟨name, rfl⟩ | rfl | ⟨hname, hvalidate⟩
    · obtain ⟨segments, rest, rfl, hrest⟩ := ih
      exact ⟨.option name value :: segments, rest, rfl, hrest⟩
    · -- What follows `--validate` is no value, so a segment may begin there.
      obtain ⟨segments, rest, hargs, hrest⟩ := ih' value
      exact ⟨.validate :: segments, rest, congrArg ("--validate" :: ·) hargs, hrest⟩
    · exact ⟨[], arg :: value :: args, rfl, .inr ⟨arg, value :: args, _, rfl, .unknown hname hvalidate⟩⟩

/-- The arguments that are understood are the concatenations of segments, and of repeated options the
last counts. Otherwise the first argument with which no segment begins is blamed, and named. -/
theorem parse_language (args : List String) :
    (∀ o, parse args = .ok o ↔
      ∃ segments : List Segment, args = segments.flatMap Segment.arguments ∧ o = .ofSegments segments) ∧
    ∀ e, parse args = .error e ↔ ∃ (segments : List Segment) (arg : String) (rest : List String),
      args = segments.flatMap Segment.arguments ++ arg :: rest ∧ Blames arg rest e ∧
        arg.toList <:+: e.message.toList := by
  obtain ⟨segments, rest, hargs, hrest⟩ := exists_segments args
  have hparse : parse args = (Options.ofSegments segments).read rest := by rw [hargs, parse_segments]
  constructor
  · intro o
    constructor
    · intro h
      rw [hparse] at h
      rcases hrest with rfl | ⟨arg, tail, e, rfl, hblames⟩
      · exact ⟨segments, by rw [hargs, List.append_nil], (Except.ok.inj h).symm⟩
      · rw [Options.read_of_blames hblames] at h
        cases h
    · rintro ⟨segments', rfl, rfl⟩
      rw [← List.append_nil (List.flatMap _ _), parse_segments]
      rfl
  · intro e
    constructor
    · intro h
      rw [hparse] at h
      rcases hrest with rfl | ⟨arg, tail, e', rfl, hblames⟩
      · cases h
      · rw [Options.read_of_blames hblames] at h
        cases h
        exact ⟨segments, arg, tail, hargs, hblames, hblames.mentioned⟩
    · rintro ⟨segments', arg, tail, rfl, hblames, -⟩
      rw [parse_segments, Options.read_of_blames hblames]

-- The second argument is a value, although it looks like a flag.
example : parse ["--graph", "--out", "--validate"] =
    .ok { graph := some "--out", validate := true } := rfl

end NodeShader.CommandLine

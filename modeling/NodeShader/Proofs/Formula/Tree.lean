import NodeShader.Proofs.Formula.Grammar
import NodeShader.Formula.Printer

namespace NodeShader.Formula

@[induction_eliminator]
theorem inductionOn {motive : Formula → Prop} (number : ∀ n, motive (number n))
    (name : ∀ x, motive (name x)) (spliced : ∀ text, motive (spliced text))
    (call : ∀ callee args, (∀ a ∈ args, motive a) → motive (call callee args))
    (member : ∀ base field, motive base → motive (member base field))
    (unary : ∀ op operand, motive operand → motive (unary op operand))
    (binary : ∀ op lhs rhs, motive lhs → motive rhs → motive (binary op lhs rhs))
    (conditional : ∀ test yes no, motive test → motive yes → motive no →
      motive (conditional test yes no)) : ∀ e, motive e
  | .number n => number n
  | .name x => name x
  | .spliced text => spliced text
  | .call callee args => call callee args fun a _ ↦
    inductionOn number name spliced call member unary binary conditional a
  | .member base field => member base field
    (inductionOn number name spliced call member unary binary conditional base)
  | .unary op operand => unary op operand
    (inductionOn number name spliced call member unary binary conditional operand)
  | .binary op lhs rhs => binary op lhs rhs
    (inductionOn number name spliced call member unary binary conditional lhs)
    (inductionOn number name spliced call member unary binary conditional rhs)
  | .conditional test yes no => conditional test yes no
    (inductionOn number name spliced call member unary binary conditional test)
    (inductionOn number name spliced call member unary binary conditional yes)
    (inductionOn number name spliced call member unary binary conditional no)

mutual

def parts : Formula → List Formula
  | number n => [number n]
  | name x => [name x]
  | spliced text => [spliced text]
  | call callee args => call callee args :: partsAll args
  | member base field => member base field :: parts base
  | unary op operand => unary op operand :: parts operand
  | binary op lhs rhs => binary op lhs rhs :: (parts lhs ++ parts rhs)
  | conditional test yes no => conditional test yes no :: (parts test ++ (parts yes ++ parts no))

def partsAll : List Formula → List Formula
  | [] => []
  | e :: es => parts e ++ partsAll es

end

mutual

/-- The numbers and names that an expression is written with, fields and what is called included. -/
def words : Formula → List Token
  | number n => [.number n]
  | name x => [.name x]
  | spliced _ => []
  | call callee args => .name callee :: wordsAll args
  | member base field => words base ++ [.name field]
  | unary _ operand => words operand
  | binary _ lhs rhs => words lhs ++ words rhs
  | conditional test yes no => words test ++ (words yes ++ words no)

def wordsAll : List Formula → List Token
  | [] => []
  | e :: es => words e ++ wordsAll es

end

mutual

def height : Formula → Nat
  | number _ | name _ | spliced _ => 1
  | call _ args => heightAll args + 1
  | member base _ => height base + 1
  | unary _ operand => height operand + 1
  | binary _ lhs rhs => max (height lhs) (height rhs) + 1
  | conditional test yes no => max (height test) (max (height yes) (height no)) + 1

def heightAll : List Formula → Nat
  | [] => 0
  | e :: es => max (height e) (heightAll es)

end

section

variable (onNumber onName onSpliced : String → Formula)

mutual

def replace : Formula → Formula
  | number n => onNumber n
  | name x => onName x
  | spliced text => onSpliced text
  | call callee args => call callee (replaceAll args)
  | member base field => member (replace base) field
  | unary op operand => unary op (replace operand)
  | binary op lhs rhs => binary op (replace lhs) (replace rhs)
  | conditional test yes no => conditional (replace test) (replace yes) (replace no)

def replaceAll : List Formula → List Formula
  | [] => []
  | e :: es => replace e :: replaceAll es

end

end

def floated (e : Formula) : Formula := e.replace (fun n ↦ number (floatText n)) name spliced

def graft (trees : String → Option Formula) (e : Formula) : Formula :=
  e.replace number (fun x ↦ (trees x).getD (name x)) spliced

variable {onNumber onName onSpliced onNumber' onName' onSpliced' : String → Formula}
  {bound : String → Option String} {e p : Formula} {args : List Formula} {t : Token}

theorem mem_partsAll : p ∈ partsAll args ↔ ∃ a ∈ args, p ∈ a.parts := by
  induction args with
  | nil => simp [partsAll]
  | cons a args ih => simp [partsAll, ih]

theorem mem_wordsAll : t ∈ wordsAll args ↔ ∃ a ∈ args, t ∈ a.words := by
  induction args with
  | nil => simp [wordsAll]
  | cons a args ih => simp [wordsAll, ih]

theorem replaceAll_eq_map :
    replaceAll onNumber onName onSpliced args = args.map (replace onNumber onName onSpliced) := by
  induction args with
  | nil => rfl
  | cons a args ih => simp [replaceAll, ih]

theorem substituteAll_eq_map : substituteAll bound args = args.map (substitute bound) := by
  induction args with
  | nil => rfl
  | cons a args ih => simp [substituteAll, ih]

theorem self_mem_parts (e : Formula) : e ∈ e.parts := by
  cases e <;> simp [parts]

theorem parts_trans {q : Formula} (hp : p ∈ e.parts) (hq : q ∈ p.parts) : q ∈ e.parts := by
  induction e with
  | number | name | spliced =>
    obtain rfl := List.mem_singleton.1 hp
    exact hq
  | call callee args ih =>
    rcases List.mem_cons.1 hp with rfl | hp
    · exact hq
    · obtain ⟨a, ha, hp⟩ := mem_partsAll.1 hp
      exact .tail _ (mem_partsAll.2 ⟨a, ha, ih a ha hp⟩)
  | member | unary | binary | conditional => grind [parts]

theorem words_of_mem_parts (hp : p ∈ e.parts) (ht : t ∈ p.words) : t ∈ e.words := by
  induction e with
  | number | name | spliced =>
    obtain rfl := List.mem_singleton.1 hp
    exact ht
  | call callee args ih =>
    rcases List.mem_cons.1 hp with rfl | hp
    · exact ht
    · obtain ⟨a, ha, hp⟩ := mem_partsAll.1 hp
      exact .tail _ (mem_wordsAll.2 ⟨a, ha, ih a ha hp⟩)
  | member | unary | binary | conditional => grind [parts, words]

/-- Only what is put in place of the leaves that occur matters. -/
theorem replace_congr (hnumber : ∀ n, onNumber n = onNumber' n) (hname : ∀ x, onName x = onName' x)
    (hspliced : ∀ text, spliced text ∈ e.parts → onSpliced text = onSpliced' text) :
    e.replace onNumber onName onSpliced = e.replace onNumber' onName' onSpliced' := by
  induction e with
  | number n => exact hnumber n
  | name x => exact hname x
  | spliced text => exact hspliced text (self_mem_parts _)
  | call callee args ih =>
    simp only [replace, replaceAll_eq_map, call.injEq, true_and, List.map_inj_left]
    intro a ha
    exact ih a ha fun text htext ↦ hspliced text (.tail _ (mem_partsAll.2 ⟨a, ha, htext⟩))
  | member base field ih => simp_all [replace, parts]
  | unary op operand ih => simp_all [replace, parts]
  | binary op lhs rhs ihl ihr => simp_all [replace, parts]
  | conditional test yes no iht ihy ihn => simp_all [replace, parts]

theorem replace_replace :
    (e.replace onNumber onName onSpliced).replace onNumber' onName' onSpliced' =
      e.replace (fun n ↦ (onNumber n).replace onNumber' onName' onSpliced')
        (fun x ↦ (onName x).replace onNumber' onName' onSpliced')
        (fun text ↦ (onSpliced text).replace onNumber' onName' onSpliced') := by
  induction e with
  | call callee args ih => simpa [replace, replaceAll_eq_map] using ih
  | _ => simp_all [replace]

theorem replace_substitute :
    (e.substitute bound).replace onNumber onName onSpliced =
      e.replace onNumber (fun x ↦ (bound x).elim (onName x) onSpliced) onSpliced := by
  induction e with
  | name x => cases h : bound x <;> simp [substitute, replace, h]
  | call callee args ih => simpa [substitute, substituteAll_eq_map, replace, replaceAll_eq_map] using ih
  | _ => simp_all [substitute, replace]

theorem partsAll_map {f : Formula → Formula} (h : ∀ a ∈ args, (f a).parts = a.parts.map f) :
    partsAll (args.map f) = (partsAll args).map f := by
  induction args with
  | nil => rfl
  | cons a args ih =>
    obtain ⟨ha, hargs⟩ := List.forall_mem_cons.1 h
    simp [partsAll, ha, ih hargs]

theorem parts_substitute : (e.substitute bound).parts = e.parts.map (substitute bound) := by
  induction e with
  | name x => cases h : bound x <;> simp [substitute, parts, h]
  | call callee args ih => simp [substitute, substituteAll_eq_map, parts, partsAll_map ih]
  | _ => simp_all [substitute, parts]

theorem words_substitute (h : t ∈ (e.substitute bound).words) : t ∈ e.words := by
  induction e with
  | name x => cases hx : bound x <;> simp_all [substitute, words]
  | call callee args ih =>
    simp only [substitute, substituteAll_eq_map, words, List.mem_cons, mem_wordsAll, List.mem_map]
      at h ⊢
    rcases h with h | ⟨_, ⟨a, ha, rfl⟩, ht⟩
    · exact .inl h
    · exact .inr ⟨a, ha, ih a ha ht⟩
  | number n => exact h
  | spliced text => exact h
  | member base field ih => grind [substitute, words]
  | unary op operand ih => exact ih h
  | binary op lhs rhs ihl ihr => grind [substitute, words]
  | conditional test yes no iht ihy ihn => grind [substitute, words]

theorem floatText_floatText (n : String) : floatText (floatText n) = floatText n := by
  by_cases h : n.toList.any (fun c ↦ c == '.' || c == 'e' || c == 'E')
  · simp [floatText, h]
  · simp [floatText, h]

theorem floated_replace : (e.replace onNumber onName onSpliced).floated =
    e.replace (fun n ↦ (onNumber n).floated) (fun x ↦ (onName x).floated)
      (fun text ↦ (onSpliced text).floated) := replace_replace

theorem parts_floated : e.floated.parts = e.parts.map floated := by
  induction e with
  | call callee args ih =>
    have hcall : (call callee args).floated = call callee (args.map floated) :=
      congrArg (call callee) replaceAll_eq_map
    rw [hcall, parts, partsAll_map ih, parts, List.map_cons, hcall]
  | _ => simp_all [floated, replace, parts]

variable {c : Category} {depth : Nat} {ts : List Token}

theorem Derives.mem_of_mem_words (h : Derives c depth ts e) (ht : t ∈ e.words) : t ∈ ts := by
  induction h with
  | number | name => exact ht
  | call callee args _ ih =>
    simp only [words, List.mem_cons, mem_wordsAll, List.mem_map] at ht
    rcases ht with rfl | ⟨_, ⟨a, ha, rfl⟩, ht⟩
    · exact List.mem_cons_self
    · have hmem := mem_commaSeparated (List.mem_map_of_mem ha) (ih a ha ht)
      simp [hmem]
  | primary _ ih | path _ ih | operand _ _ ih | chain _ ih => exact ih ht
  | group | member | sign | binary | conditional => grind [words]

theorem Derives.not_spliced (h : Derives c depth ts e) (text : String) :
    spliced text ∉ e.parts := by
  induction h with
  | number | name => simp [parts]
  | call callee args _ ih =>
    simp only [parts, List.mem_cons, mem_partsAll, List.mem_map, not_or]
    refine ⟨nofun, ?_⟩
    rintro ⟨_, ⟨a, ha, rfl⟩, hmem⟩
    exact ih a ha hmem
  | group _ ih | primary _ ih | path _ ih | operand _ _ ih | chain _ ih => exact ih
  | member | sign | binary | conditional => simp_all [parts]

end NodeShader.Formula

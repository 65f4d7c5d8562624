import NodeShader.Formula.Parser
import Mathlib.Data.List.Basic

namespace NodeShader.Formula

/-- The kinds of phrases. A chain consists of operands and of operators that bind at least as tightly
as `least`, a path of a primary expression and the fields taken of it. -/
inductive Category where
  | whole
  | chain (least : Nat)
  | operand
  | path
  | primary

def Token.startsPath : Token → Bool
  | name _ | number _ | openParen => true
  | _ => false

theorem Token.sign?_of_startsPath {t : Token} (h : t.startsPath) : t.sign? = none := by
  cases t with
  | operator op => cases h
  | bang => cases h
  | _ => rfl

def commaSeparated : List (List Token) → List Token
  | [] => []
  | [ts] => ts
  | ts :: rest => ts ++ .comma :: commaSeparated rest

theorem length_le_commaSeparated (tss : List (List Token)) :
    tss.length ≤ (commaSeparated tss).length + 1 := by
  fun_induction commaSeparated tss with
  | case1 | case2 => simp
  | case3 ts tss _ ih =>
    simp only [List.length_cons, List.length_append]
    omega

theorem mem_commaSeparated {tss : List (List Token)} {ts : List Token} {t : Token} (hts : ts ∈ tss)
    (ht : t ∈ ts) : t ∈ commaSeparated tss := by
  fun_induction commaSeparated tss with
  | case1 => cases hts
  | case2 us => simp_all
  | case3 us tss _ ih =>
    rcases List.mem_cons.1 hts with rfl | hts
    · exact List.mem_append_left _ ht
    · exact List.mem_append_right _ (.tail _ (ih hts))

/-- The tokens are a phrase for the expression, with at most `depth` signs and whole expressions
inside each other. -/
inductive Derives : Category → (depth : Nat) → List Token → Formula → Prop
  | number {depth} (n : String) : Derives .primary depth [.number n] (.number n)
  | name {depth} (x : String) : Derives .primary depth [.name x] (.name x)
  | call {depth} (callee : String) (args : List (List Token × Formula)) :
      (∀ a ∈ args, Derives .whole depth a.1 a.2) →
      Derives .primary depth
        (.name callee :: .openParen :: (commaSeparated (args.map (·.1)) ++ [.closeParen]))
        (.call callee (args.map (·.2)))
  | group {depth ts e} : Derives .whole depth ts e →
      Derives .primary depth (.openParen :: (ts ++ [.closeParen])) e
  | primary {depth ts e} : Derives .primary depth ts e → Derives .path depth ts e
  | member {depth ts e} (field : String) : Derives .path depth ts e →
      Derives .path depth (ts ++ [.dot, .name field]) (.member e field)
  | path {depth ts e} : Derives .path depth ts e → Derives .operand depth ts e
  | sign {depth ts e t op} : Token.sign? t = some op → Derives .operand depth ts e →
      Derives .operand (depth + 1) (t :: ts) (.unary op e)
  | operand {depth ts e} (least : Nat) : Derives .operand depth ts e →
      Derives (.chain least) depth ts e
  | binary {depth ts us l r least} (op : BinaryOp) : least ≤ op.precedence →
      Derives (.chain op.precedence) depth ts l → Derives (.chain (op.precedence + 1)) depth us r →
      Derives (.chain least) depth (ts ++ .operator op :: us) (.binary op l r)
  | chain {depth ts e} : Derives (.chain 2) depth ts e → Derives .whole (depth + 1) ts e
  | conditional {depth ts us vs test yes no} : Derives (.chain 2) depth ts test →
      Derives .whole depth us yes → Derives .whole depth vs no →
      Derives .whole (depth + 1) (ts ++ .question :: (us ++ .colon :: vs)) (.conditional test yes no)

namespace Derives

variable {c : Category} {depth depth' least least' : Nat} {ts : List Token} {e : Formula}

theorem mono (h : Derives c depth ts e) (hd : depth ≤ depth') : Derives c depth' ts e := by
  induction h generalizing depth' with
  | number n => exact .number n
  | name x => exact .name x
  | call callee args _ ih => exact .call callee args fun a ha ↦ ih a ha hd
  | group _ ih => exact .group (ih hd)
  | primary _ ih => exact .primary (ih hd)
  | member field _ ih => exact .member field (ih hd)
  | path _ ih => exact .path (ih hd)
  | sign ht _ ih =>
    obtain ⟨depth', rfl⟩ : ∃ k, depth' = k + 1 := ⟨depth' - 1, by omega⟩
    exact .sign ht (ih (by omega))
  | operand least _ ih => exact .operand least (ih hd)
  | binary op hop _ _ ihl ihr => exact .binary op hop (ihl hd) (ihr hd)
  | chain _ ih =>
    obtain ⟨depth', rfl⟩ : ∃ k, depth' = k + 1 := ⟨depth' - 1, by omega⟩
    exact .chain (ih (by omega))
  | conditional _ _ _ iht ihy ihn =>
    obtain ⟨depth', rfl⟩ : ∃ k, depth' = k + 1 := ⟨depth' - 1, by omega⟩
    exact .conditional (iht (by omega)) (ihy (by omega)) (ihn (by omega))

theorem loosen (h : Derives (.chain least) depth ts e) (hl : least' ≤ least) :
    Derives (.chain least') depth ts e := by
  cases h with
  | operand _ h => exact .operand least' h
  | binary op hop hl' hr => exact .binary op (Nat.le_trans hl hop) hl' hr

/-- A phrase begins as a path does, or with a sign if it is no path. -/
theorem exists_cons (h : Derives c depth ts e) :
    ∃ t us, ts = t :: us ∧ (t.startsPath ∨ t.sign?.isSome) ∧
      (c = .primary ∨ c = .path → t.startsPath) := by
  induction h with
  | number | name | call | group => exact ⟨_, _, rfl, .inl rfl, fun _ ↦ rfl⟩
  | primary _ ih =>
    obtain ⟨t, us, rfl, ht, hpath⟩ := ih
    exact ⟨t, us, rfl, ht, fun _ ↦ hpath (.inl rfl)⟩
  | member field _ ih =>
    obtain ⟨t, us, rfl, ht, hpath⟩ := ih
    exact ⟨t, _, rfl, ht, fun _ ↦ hpath (.inr rfl)⟩
  | sign ht => exact ⟨_, _, rfl, .inr (by simp [ht]), nofun⟩
  | path _ ih | operand _ _ ih | chain _ ih =>
    obtain ⟨t, us, rfl, ht, -⟩ := ih
    exact ⟨t, us, rfl, ht, nofun⟩
  | binary _ _ _ _ ih _ | conditional _ _ _ ih _ _ =>
    obtain ⟨t, us, rfl, ht, -⟩ := ih
    exact ⟨t, _, rfl, ht, nofun⟩

end Derives

end NodeShader.Formula

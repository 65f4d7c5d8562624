import NodeShader.Proofs.Formula.Tree
import Mathlib.Data.List.Induction

namespace NodeShader

section Distinct

variable {α : Type} [DecidableEq α]

theorem distinct_snoc (xs : List α) (x : α) : distinct (xs ++ [x]) = addNew (distinct xs) x :=
  mergeNew_append [] xs [x]

theorem filter_addNew (p : α → Bool) (xs : List α) (x : α) :
    (addNew xs x).filter p = if p x then addNew (xs.filter p) x else xs.filter p := by
  by_cases hx : x ∈ xs <;> by_cases hp : p x <;> simp [addNew, hx, hp]

/-- What is left out may as well be left out before. -/
theorem distinct_filter (p : α → Bool) (xs : List α) :
    distinct (xs.filter p) = (distinct xs).filter p := by
  induction xs using List.reverseRecOn with
  | nil => rfl
  | append_singleton xs x ih =>
    rw [distinct_snoc, filter_addNew, ← ih, List.filter_append]
    by_cases hp : p x
    · rw [if_pos hp, List.filter_cons_of_pos hp, List.filter_nil, distinct_snoc]
    · rw [if_neg hp, List.filter_cons_of_neg hp, List.filter_nil, List.append_nil]

/-- The elements stand in the order in which they first occur. -/
theorem pairwise_distinct (xs : List α) :
    (distinct xs).Pairwise fun x y ↦ xs.idxOf x < xs.idxOf y := by
  induction xs using List.reverseRecOn with
  | nil => exact .nil
  | append_singleton xs z ih =>
    have hold : ∀ x ∈ distinct xs, (xs ++ [z]).idxOf x = xs.idxOf x := fun x hx ↦
      List.idxOf_append_of_mem (mem_distinct.1 hx)
    have hbefore : (distinct xs).Pairwise fun x y ↦ (xs ++ [z]).idxOf x < (xs ++ [z]).idxOf y := by
      refine ih.imp_of_mem fun hx hy hlt ↦ ?_
      rwa [hold _ hx, hold _ hy]
    rw [distinct_snoc, addNew]
    split
    · exact hbefore
    · rename_i hz
      refine List.pairwise_append.2 ⟨hbefore, List.pairwise_singleton _ _, fun x hx y hy ↦ ?_⟩
      obtain rfl := List.mem_singleton.1 hy
      rw [hold x hx, List.idxOf_append_of_notMem (mt mem_distinct.2 hz)]
      have hlt := List.idxOf_lt_length_of_mem (mem_distinct.1 hx)
      omega

end Distinct

namespace Formula

variable {bound bound' : String → Option String} {e : Formula} {x : String}

theorem usesAll_eq_flatMap (args : List Formula) : usesAll args = args.flatMap uses := by
  induction args with
  | nil => rfl
  | cons a args ih => simp [usesAll, ih]

theorem uses_substitute (bound : String → Option String) (e : Formula) :
    (e.substitute bound).uses = e.uses.filter fun x ↦ (bound x).isNone := by
  induction e with
  | number n => rfl
  | name x => cases hx : bound x <;> simp [substitute, uses, hx]
  | spliced text => rfl
  | call callee args ih =>
    simp only [substitute, substituteAll_eq_map, uses, usesAll_eq_flatMap, List.flatMap_map,
      List.filter_flatMap]
    exact List.flatMap_congr ih
  | member base field ih => exact ih
  | unary op operand ih => exact ih
  | binary op lhs rhs ihl ihr => simp only [substitute, uses, ihl, ihr, List.filter_append]
  | conditional test yes no iht ihy ihn =>
    simp only [substitute, uses, iht, ihy, ihn, List.filter_append]

theorem freeNames_substitute (bound : String → Option String) (e : Formula) :
    (e.substitute bound).freeNames = e.freeNames.filter fun x ↦ (bound x).isNone := by
  rw [freeNames, uses_substitute, distinct_filter, freeNames]

/-- Text that was put in is not looked at again. -/
theorem substitute_substitute (bound bound' : String → Option String) (e : Formula) :
    (e.substitute bound).substitute bound' = e.substitute fun x ↦ bound x <|> bound' x := by
  induction e with
  | number n => rfl
  | name x => cases hx : bound x <;> simp [substitute, hx]
  | spliced text => rfl
  | call callee args ih =>
    simp only [substitute, substituteAll_eq_map, List.map_map, call.injEq, true_and]
    exact List.map_congr_left ih
  | member base field ih => simp only [substitute, ih]
  | unary op operand ih => simp only [substitute, ih]
  | binary op lhs rhs ihl ihr => simp only [substitute, ihl, ihr]
  | conditional test yes no iht ihy ihn => simp only [substitute, iht, ihy, ihn]

theorem substitute_name_inj :
    (name x).substitute bound = (name x).substitute bound' ↔ bound x = bound' x := by
  cases hx : bound x <;> cases hx' : bound' x <;> simp [substitute, hx, hx']

theorem substitute_eq_substitute_iff :
    e.substitute bound = e.substitute bound' ↔ ∀ x ∈ e.freeNames, bound x = bound' x := by
  simp only [freeNames, mem_distinct]
  induction e with
  | number n => simp [substitute, uses]
  | name x => simp [uses, substitute_name_inj]
  | spliced text => simp [substitute, uses]
  | call callee args ih =>
    simp only [substitute, substituteAll_eq_map, call.injEq, true_and, List.map_inj_left, uses,
      usesAll_eq_flatMap, List.mem_flatMap]
    constructor
    · rintro h x ⟨a, ha, hx⟩
      exact (ih a ha).1 (h a ha) x hx
    · intro h a ha
      exact (ih a ha).2 fun x hx ↦ h x ⟨a, ha, hx⟩
  | member base field ih => simp [substitute, uses, ih]
  | unary op operand ih => simp [substitute, uses, ih]
  | binary op lhs rhs ihl ihr => simp [substitute, uses, ihl, ihr, or_imp, forall_and]
  | conditional test yes no iht ihy ihn =>
    simp [substitute, uses, iht, ihy, ihn, or_imp, forall_and]

theorem substitute_none (e : Formula) : e.substitute (fun _ ↦ none) = e := by
  induction e with
  | call callee args ih =>
    simp only [substitute, substituteAll_eq_map, call.injEq, true_and]
    exact (List.map_congr_left ih).trans (List.map_id args)
  | _ => simp_all [substitute]

/-- The laws of substitution: it takes the bound names out of the free ones and keeps the order in which
the others are first used, the bindings of two substitutions add up with those of the first in front, and
exactly the bindings of free names make a difference. -/
theorem substitute_laws (e : Formula) (bound bound' : String → Option String) :
    ((e.substitute bound).freeNames = e.freeNames.filter fun x ↦ (bound x).isNone) ∧
      (e.substitute bound).freeNames.Nodup ∧
      ((e.substitute bound).freeNames.Pairwise fun x y ↦ e.uses.idxOf x < e.uses.idxOf y) ∧
      ((e.substitute bound).substitute bound' = e.substitute fun x ↦ bound x <|> bound' x) ∧
      (e.substitute bound = e.substitute bound' ↔ ∀ x ∈ e.freeNames, bound x = bound' x) ∧
      (e.substitute bound = e ↔ ∀ x ∈ e.freeNames, bound x = none) := by
  have horder : (e.substitute bound).freeNames.Pairwise fun x y ↦ e.uses.idxOf x < e.uses.idxOf y := by
    rw [freeNames_substitute]
    exact (pairwise_distinct e.uses).filter _
  have hself : e.substitute bound = e ↔ ∀ x ∈ e.freeNames, bound x = none := by
    have hiff : e.substitute bound = e.substitute (fun _ ↦ none) ↔ ∀ x ∈ e.freeNames, bound x = none :=
      substitute_eq_substitute_iff
    rwa [substitute_none] at hiff
  exact ⟨freeNames_substitute bound e, nodup_distinct _, horder, substitute_substitute bound bound' e,
    substitute_eq_substitute_iff, hself⟩

end Formula

end NodeShader

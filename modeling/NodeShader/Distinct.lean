namespace NodeShader

variable {α : Type} [DecidableEq α]

def addNew (xs : List α) (x : α) : List α := if x ∈ xs then xs else xs ++ [x]

def mergeNew (xs ys : List α) : List α := ys.foldl addNew xs

/-- Every element once, where it first occurs. -/
def distinct (xs : List α) : List α := mergeNew [] xs

@[simp] theorem mem_addNew {xs : List α} {x y : α} : y ∈ addNew xs x ↔ y ∈ xs ∨ y = x := by
  unfold addNew
  split
  · constructor
    · exact .inl
    · rintro (h | rfl) <;> assumption
  · simp

theorem nodup_addNew {xs : List α} (h : xs.Nodup) (x : α) : (addNew xs x).Nodup := by
  unfold addNew
  split
  · exact h
  · rename_i hx
    refine List.nodup_append.2 ⟨h, by simp, fun a ha b hb ↦ ?_⟩
    rintro rfl
    exact hx (List.mem_singleton.1 hb ▸ ha)

@[simp] theorem mergeNew_nil (xs : List α) : mergeNew xs [] = xs := rfl

theorem mergeNew_cons (xs : List α) (y : α) (ys : List α) :
    mergeNew xs (y :: ys) = mergeNew (addNew xs y) ys := rfl

theorem mergeNew_append (xs ys zs : List α) :
    mergeNew xs (ys ++ zs) = mergeNew (mergeNew xs ys) zs := by
  simp [mergeNew, List.foldl_append]

@[simp] theorem mem_mergeNew {xs ys : List α} {y : α} : y ∈ mergeNew xs ys ↔ y ∈ xs ∨ y ∈ ys := by
  induction ys generalizing xs with
  | nil => simp
  | cons z ys ih => simp [mergeNew_cons, ih, or_assoc]

theorem nodup_mergeNew {xs : List α} (h : xs.Nodup) (ys : List α) : (mergeNew xs ys).Nodup := by
  induction ys generalizing xs with
  | nil => exact h
  | cons y ys ih => exact ih (nodup_addNew h y)

@[simp] theorem mem_distinct {xs : List α} {x : α} : x ∈ distinct xs ↔ x ∈ xs := by
  simp [distinct]

theorem nodup_distinct (xs : List α) : (distinct xs).Nodup := nodup_mergeNew List.nodup_nil xs

end NodeShader

import NodeShader.Fault

namespace NodeShader

variable {ε α β σ : Type}

def Ends (x : Except ε α) (good : α → Prop) (bad : ε → Prop) : Prop :=
  match x with
  | .ok a => good a
  | .error e => bad e

namespace Ends

variable {good good' : α → Prop} {bad : ε → Prop}

@[simp] theorem ok {a : α} : Ends (.ok a) good bad ↔ good a := Iff.rfl

@[simp] theorem error {e : ε} : Ends (.error e : Except ε α) good bad ↔ bad e := Iff.rfl

theorem mono {bad' : ε → Prop} {x : Except ε α} (h : Ends x good bad)
    (hg : ∀ a, good a → good' a) (hb : ∀ e, bad e → bad' e) : Ends x good' bad' := by
  cases x with
  | ok a => exact hg a h
  | error e => exact hb e h

theorem imp {x : Except ε α} (h : Ends x good bad) (hg : ∀ a, good a → good' a) :
    Ends x good' bad := h.mono hg fun _ ↦ id

theorem with_eq {x : Except ε α} (h : Ends x good bad) :
    Ends x (fun a ↦ x = .ok a ∧ good a) bad := by
  cases x with
  | ok a => exact ⟨rfl, h⟩
  | error e => exact h

theorem bind {x : Except ε α} {f : α → Except ε β} {next : β → Prop} (h : Ends x good bad)
    (hf : ∀ a, good a → Ends (f a) next bad) : Ends (x >>= f) next bad := by
  cases x with
  | ok a => exact hf a h
  | error e => exact h

/-- What every step keeps, told of the parts of the list that are done and to come, holds at the
end. -/
theorem foldlM_split {f : σ → α → Except ε σ} {s : σ} (good : List α → σ → Prop) (xs : List α)
    (h : good [] s) (step : ∀ done x rest s, xs = done ++ x :: rest → good done s →
      Ends (f s x) (good (done ++ [x])) bad) :
    Ends (xs.foldlM f s) (good xs) bad := by
  suffices hg : ∀ rest done s, xs = done ++ rest → good done s →
      Ends (rest.foldlM f s) (good xs) bad from hg xs [] s rfl h
  clear h s
  intro rest
  induction rest with
  | nil =>
    intro done s hxs h
    rw [hxs, List.append_nil]
    exact h
  | cons x rest ih =>
    intro done s hxs h
    rw [List.foldlM_cons]
    refine (step done x rest s hxs h).bind fun s' h' ↦ ?_
    exact ih (done ++ [x]) s' (by simpa using hxs) h'

/-- What every step keeps, told of the part of the list that is done, holds at the end. -/
theorem foldlM {f : σ → α → Except ε σ} {s : σ} (good : List α → σ → Prop) (xs : List α)
    (h : good [] s) (step : ∀ done x s, x ∈ xs → good done s → Ends (f s x) (good (done ++ [x])) bad) :
    Ends (xs.foldlM f s) (good xs) bad :=
  foldlM_split good xs h fun done x rest s hxs ↦ step done x s (by simp [hxs])

end Ends

theorem exists_of_isOk {x : Except ε α} (h : x.isOk) : ∃ a, x = .ok a := by
  cases x with
  | ok a => exact ⟨a, rfl⟩
  | error e => cases h

theorem of_map_eq_ok {x : Except ε α} {f : α → β} {a : α} {b : β} (h : x.map f = .ok b)
    (hx : x = .ok a) : f a = b := by
  subst hx
  exact Except.ok.inj h

theorem exists_of_map_eq_ok {x : Except ε α} {f : α → β} {b : β} (h : x.map f = .ok b) :
    ∃ a, x = .ok a ∧ f a = b := by
  cases x with
  | ok a => exact ⟨a, rfl, Except.ok.inj h⟩
  | error e => cases h

theorem bind_eq_ok {x : Except ε α} {f : α → Except ε β} {r : β} :
    (x >>= f) = .ok r ↔ ∃ a, x = .ok a ∧ f a = .ok r := by
  cases x <;> simp [bind, Except.bind]

theorem exists_of_foldlM_eq_ok {f : σ → α → Except ε σ} {xs : List α} {s r : σ}
    (h : xs.foldlM f s = .ok r) {x : α} (hx : x ∈ xs) : ∃ s s', f s x = .ok s' := by
  induction xs generalizing s with
  | nil => cases hx
  | cons y xs ih =>
    rw [List.foldlM_cons, bind_eq_ok] at h
    obtain ⟨s', hy, hrest⟩ := h
    rcases List.mem_cons.1 hx with rfl | hx
    · exact ⟨s, s', hy⟩
    · exact ih hrest hx

/-- What every successful step keeps, told of the part of the list that is done, holds after a
successful run. -/
theorem foldlM_eq_ok_progress {f : σ → α → Except ε σ} {xs : List α} {s r : σ}
    (motive : List α → σ → Prop) (h : xs.foldlM f s = .ok r) (hs : motive [] s)
    (step : ∀ done s s' x, x ∈ xs → f s x = .ok s' → motive done s → motive (done ++ [x]) s') :
    motive xs r := by
  have hends : Ends (xs.foldlM f s) (motive xs) fun _ ↦ True := by
    refine Ends.foldlM motive xs hs fun done x s hx hdone ↦ ?_
    cases hstep : f s x with
    | ok s' => exact step done s s' x hx hstep hdone
    | error e => trivial
  rwa [h] at hends

/-- What every successful step keeps, a successful run keeps. -/
theorem foldlM_eq_ok_induction {f : σ → α → Except ε σ} {xs : List α} {s r : σ}
    (motive : σ → Prop) (h : xs.foldlM f s = .ok r) (hs : motive s)
    (step : ∀ s s' x, x ∈ xs → f s x = .ok s' → motive s → motive s') : motive r :=
  foldlM_eq_ok_progress (fun _ ↦ motive) h hs fun _ ↦ step

end NodeShader

namespace NodeShader

def lookup {α : Type} (k : String) : List (String × α) → Option α
  | [] => none
  | e :: es => if e.1 = k then some e.2 else lookup k es

theorem lookup_append {α : Type} (k : String) (xs ys : List (String × α)) :
    lookup k (xs ++ ys) = (lookup k xs <|> lookup k ys) := by
  induction xs with
  | nil => simp [lookup]
  | cons e xs ih =>
    by_cases h : e.1 = k <;> simp [lookup, h, ih]

theorem mem_of_lookup {α : Type} {k : String} {v : α} {es : List (String × α)}
    (h : lookup k es = some v) : (k, v) ∈ es := by
  induction es with
  | nil => cases h
  | cons e es ih =>
    unfold lookup at h
    split at h
    · rename_i he
      cases h
      exact he ▸ List.mem_cons_self
    · exact List.mem_cons_of_mem e (ih h)

theorem lt_of_not_lt_of_ne {k l : String} (h : ¬ k < l) (hne : k ≠ l) : l < k :=
  Classical.byContradiction fun hn ↦ hne (String.le_antisymm (String.not_lt.1 hn) (String.not_lt.1 h))

def Ascending {α : Type} (es : List (String × α)) : Prop := es.Pairwise (fun a b ↦ a.1 < b.1)

/-- Entries with ascending keys, all of them above the bound if there is one. -/
inductive Sorted (α : Type) : Option String → Type
  | nil {bound : Option String} : Sorted α bound
  | cons {bound : Option String} (key : String) (value : α) (above : bound.all (· < key))
      (rest : Sorted α (some key)) : Sorted α bound

namespace Sorted

variable {α : Type} {bound : Option String}

def entries : {bound : Option String} → Sorted α bound → List (String × α)
  | _, nil => []
  | _, cons k v _ rest => (k, v) :: rest.entries

def insert (k : String) (v : α) :
    {bound : Option String} → Sorted α bound → bound.all (· < k) → Sorted α bound
  | _, nil, hk => cons k v hk nil
  | _, cons l w hl rest, hk =>
    if hlt : k < l then cons k v hk (cons l w (decide_eq_true hlt) rest)
    else if heq : k = l then cons l v hl rest
    else cons l w hl (rest.insert k v (decide_eq_true (lt_of_not_lt_of_ne hlt heq)))

theorem lookup_insert {k : String} (v : α) (d : Sorted α bound) (hk : bound.all (· < k)) (k' : String) :
    lookup k' (d.insert k v hk).entries = if k' = k then some v else lookup k' d.entries := by
  induction d with
  | nil => simp [insert, entries, lookup, eq_comm]
  | cons l w hl rest ih =>
    unfold insert
    split
    · simp [entries, lookup, eq_comm]
    · split
      · rename_i heq
        simp only [entries, lookup, ← heq, eq_comm]
        split <;> rfl
      · rename_i hne
        rw [entries, lookup, ih, entries, lookup]
        by_cases hk' : k' = k
        · simp [hk', Ne.symm hne]
        · simp [hk']

theorem mem_of_mem_insert {k : String} {v : α} {d : Sorted α bound} {hk : bound.all (· < k)}
    {e : String × α} (h : e ∈ (d.insert k v hk).entries) : e = (k, v) ∨ e ∈ d.entries := by
  induction d with
  | nil => simpa [insert, entries] using h
  | cons l w hl rest ih =>
    unfold insert at h
    split at h
    · exact List.mem_cons.1 h
    · split at h
      · rename_i heq
        exact (List.mem_cons.1 h).imp (heq ▸ ·) (List.mem_cons_of_mem _)
      · rcases List.mem_cons.1 h with rfl | h
        · exact .inr List.mem_cons_self
        · exact (ih h).imp_right (List.mem_cons_of_mem _)

theorem entries_insert_of_lt {k : String} (v : α) {d : Sorted α bound} (hk : bound.all (· < k))
    (h : ∀ e ∈ d.entries, e.1 < k) : (d.insert k v hk).entries = d.entries ++ [(k, v)] := by
  induction d with
  | nil => rfl
  | cons l w hl rest ih =>
    obtain ⟨hlt, hrest⟩ := List.forall_mem_cons.1 h
    have hne : k ≠ l := fun heq ↦ String.lt_irrefl _ (heq ▸ hlt)
    rw [insert, dif_neg (String.lt_asymm hlt), dif_neg hne, entries, ih _ hrest, entries,
      List.cons_append]

theorem entries_injective {d d' : Sorted α bound} (h : d.entries = d'.entries) : d = d' := by
  induction d with
  | nil =>
    cases d' with
    | nil => rfl
    | cons => cases h
  | cons k v hk rest ih =>
    cases d' with
    | nil => cases h
    | cons k' v' hk' rest' =>
      obtain ⟨hhead, htail⟩ := List.cons.inj h
      obtain ⟨rfl, rfl⟩ := Prod.mk.inj hhead
      rw [ih htail]

theorem above_of_mem {d : Sorted α bound} {e : String × α} (he : e ∈ d.entries) :
    bound.all (· < e.1) := by
  induction d with
  | nil => cases he
  | @cons bound k v hk rest ih =>
    rcases List.mem_cons.1 he with rfl | he
    · exact hk
    · have hlt : k < e.1 := of_decide_eq_true (ih he)
      cases bound with
      | none => rfl
      | some b => exact decide_eq_true (String.lt_trans (of_decide_eq_true hk) hlt)

theorem ascending (d : Sorted α bound) : Ascending d.entries := by
  induction d with
  | nil => exact .nil
  | cons k v hk rest ih => exact .cons (fun e he ↦ of_decide_eq_true (above_of_mem he)) ih

end Sorted

abbrev Dict (α : Type) := Sorted α none

namespace Dict

variable {α : Type}

def empty : Dict α := .nil

instance : Inhabited (Dict α) := ⟨empty⟩

def get? (d : Dict α) (k : String) : Option α := lookup k d.entries

def contains (d : Dict α) (k : String) : Bool := (d.get? k).isSome

def insert (d : Dict α) (k : String) (v : α) : Dict α := Sorted.insert k v d rfl

def keys (d : Dict α) : List String := d.entries.map (·.1)

def size (d : Dict α) : Nat := d.entries.length

/-- All entries put in one after the other: of entries with one key the last stays. -/
def ofList (es : List (String × α)) : Dict α := es.foldl (fun d e ↦ d.insert e.1 e.2) empty

@[simp] theorem get?_empty (k : String) : (empty : Dict α).get? k = none := rfl

theorem get?_insert (d : Dict α) (k : String) (v : α) (k' : String) :
    (d.insert k v).get? k' = if k' = k then some v else d.get? k' :=
  Sorted.lookup_insert v d rfl k'

theorem get?_foldl_insert (d : Dict α) (es : List (String × α)) (k : String) :
    (es.foldl (fun d e ↦ d.insert e.1 e.2) d).get? k = (lookup k es.reverse <|> d.get? k) := by
  induction es generalizing d with
  | nil => simp [lookup]
  | cons e es ih =>
    rw [List.foldl_cons, ih, get?_insert, List.reverse_cons, lookup_append]
    by_cases h : k = e.1
    · cases lookup k es.reverse <;> simp [lookup, h]
    · cases lookup k es.reverse <;> simp [lookup, h, Ne.symm h]

theorem get?_ofList (es : List (String × α)) (k : String) :
    (ofList es).get? k = lookup k es.reverse := by
  simp [ofList, get?_foldl_insert]

theorem foldl_insert_entries (d : Dict α) (es : List (String × α))
    (h : Ascending (d.entries ++ es)) :
    (es.foldl (fun d e ↦ d.insert e.1 e.2) d).entries = d.entries ++ es := by
  induction es generalizing d with
  | nil => simp
  | cons e es ih =>
    have hlt : ∀ a ∈ d.entries, a.1 < e.1 := fun a ha ↦
      (List.pairwise_append.1 h).2.2 a ha e List.mem_cons_self
    have hi : (d.insert e.1 e.2).entries = d.entries ++ [e] :=
      Sorted.entries_insert_of_lt e.2 rfl hlt
    rw [List.foldl_cons, ih _ (by rw [hi]; simpa using h), hi]
    simp

@[simp] theorem ofList_entries (d : Dict α) : ofList d.entries = d :=
  Sorted.entries_injective (foldl_insert_entries empty d.entries d.ascending)

end Dict

end NodeShader

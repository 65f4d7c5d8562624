import NodeShader.Glsl.Literal
import NodeShader.Json.Param

namespace NodeShader

theorem FloatFormat.nearest_zero (F : FloatFormat) (den : Nat) : F.nearest 0 den = 0 := by
  simp [nearest, roundHalfEven]

namespace Binary

variable {F G : FloatFormat} {x y : Binary F}

/-- The number itself, but of the two zeros the one without a sign. -/
def canonical (x : Binary F) : Binary F := if x.magnitude.val = 0 then zero else x

theorem canonical_of_zero (h : x.magnitude.val = 0) : x.canonical = zero := if_pos h

theorem canonical_of_ne_zero (h : x.magnitude.val ≠ 0) : x.canonical = x := if_neg h

theorem canonical_canonical (x : Binary F) : x.canonical.canonical = x.canonical := by
  by_cases h : x.magnitude.val = 0
  · rw [canonical_of_zero h]
    rfl
  · rw [canonical_of_ne_zero h, canonical_of_ne_zero h]

theorem magnitude_canonical (x : Binary F) : x.canonical.magnitude = x.magnitude := by
  by_cases h : x.magnitude.val = 0
  · rw [canonical_of_zero h]
    exact (Fin.ext h).symm
  · rw [canonical_of_ne_zero h]

theorem canonical_eq_of_same (h : x.same y = true) : x.canonical = y.canonical := by
  obtain ⟨s, m⟩ := x
  obtain ⟨s', m'⟩ := y
  simp only [same, Bool.and_eq_true, Bool.or_eq_true, beq_iff_eq] at h
  obtain ⟨-, rfl, rfl | hzero⟩ := h
  · rfl
  · rw [canonical_of_zero hzero, canonical_of_zero hzero]

theorem same_zero_iff : x.same zero = true ↔ x.magnitude.val = 0 := by
  constructor
  · intro h
    simp only [same, Bool.and_eq_true, beq_iff_eq] at h
    exact congrArg Fin.val h.2.1
  · intro h
    have hmagnitude : x.magnitude = zero.magnitude := Fin.ext h
    simp [same, isNaN, hmagnitude, zero]

/-- Whichever zero is converted, a zero comes out. -/
theorem canonical_convert (hF : 0 < F.infinity) (x : Binary F) :
    (x.canonical.convert G).canonical = (x.convert G).canonical := by
  have hzero : ∀ z : Binary F, z.magnitude.val = 0 → (z.convert G).canonical = zero := by
    intro z hz
    have hunits : z.units = 0 := by simp [units, hz]
    have hfinite : z.isFinite = true := by simp [isFinite, hz, hF]
    apply canonical_of_zero
    simp [convert, hfinite, hunits, ofRatio, FloatFormat.nearest_zero]
  by_cases h : x.magnitude.val = 0
  · rw [canonical_of_zero h, hzero zero rfl, hzero x h]
  · rw [canonical_of_ne_zero h]

end Binary

theorem FloatFormat.double_infinity_pos : 0 < FloatFormat.double.infinity := by decide

theorem FloatFormat.single_infinity_pos : 0 < FloatFormat.single.infinity := by decide

namespace Glsl

theorem floatLiteral_of_zero {x : Binary32} (h : x.magnitude.val = 0) : floatLiteral x = "0.0" := by
  have hfinite : x.isFinite = true := by
    simp [Binary.isFinite, h, FloatFormat.single_infinity_pos]
  have hnone : millionths x = 0 := by simp [millionths, Binary.units, roundHalfEven, h]
  rw [floatLiteral, if_pos hfinite, fixedPoint, hnone]
  cases x.negative with
  | false => rfl
  | true => rfl

/-- No literal shows the sign of a zero. -/
theorem floatLiteral_canonical (x : Binary32) : floatLiteral x.canonical = floatLiteral x := by
  by_cases h : x.magnitude.val = 0
  · rw [Binary.canonical_of_zero h, floatLiteral_of_zero h, floatLiteral_of_zero rfl]
  · rw [Binary.canonical_of_ne_zero h]

theorem vectorLiteral_canonical (xs : List Binary32) :
    vectorLiteral (xs.map Binary.canonical) = vectorLiteral xs := by
  simp only [vectorLiteral, List.length_map, List.map_map, Function.comp_def, floatLiteral_canonical]

end Glsl

namespace Sorted

variable {α β : Type} {bound : Option String}

def map (f : α → β) : {bound : Option String} → Sorted α bound → Sorted β bound
  | _, nil => nil
  | _, cons k v hk rest => cons k (f v) hk (rest.map f)

theorem lookup_map (f : α → β) (d : Sorted α bound) (k : String) :
    lookup k (d.map f).entries = (lookup k d.entries).map f := by
  induction d with
  | nil => rfl
  | cons l v hl rest ih =>
    simp only [map, entries, lookup, ih]
    split <;> rfl

end Sorted

theorem Dict.get?_map {α β : Type} (f : α → β) (d : Dict α) (k : String) :
    Dict.get? (d.map f) k = (d.get? k).map f := d.lookup_map f k

def Number.canonical : Number → Number
  | .int z => .int z
  | .float x => .float x.canonical

namespace Json

mutual

def canonical : Json → Json
  | null => null
  | bool b => bool b
  | number n => number n.canonical
  | string s => string s
  | array xs => array (canonicalItems xs)
  | object xs => object (canonicalFields xs)

def canonicalItems : List Json → List Json
  | [] => []
  | x :: xs => canonical x :: canonicalItems xs

def canonicalFields {bound : Option String} : Sorted Json bound → Sorted Json bound
  | .nil => .nil
  | .cons k x hk xs => .cons k (canonical x) hk (canonicalFields xs)

end

theorem canonicalItems_eq_map (xs : List Json) : canonicalItems xs = xs.map canonical := by
  induction xs with
  | nil => rfl
  | cons x xs ih => rw [canonicalItems, ih, List.map_cons]

theorem canonicalFields_eq_map {bound : Option String} (xs : Sorted Json bound) :
    canonicalFields xs = xs.map canonical := by
  induction xs with
  | nil => rfl
  | cons k x hk xs ih => rw [canonicalFields, ih, Sorted.map]

mutual

theorem canonical_eq_of_same : ∀ {x y : Json}, same x y = true → x.canonical = y.canonical
  | null, null, _ => rfl
  | bool a, bool b, h => by
    simp only [same, beq_iff_eq] at h
    rw [h]
  | number (.int y), number (.int z), h => by
    simp only [same, Number.same, beq_iff_eq] at h
    rw [h]
  | number (.float x), number (.float y), h => by
    simp only [same, Number.same] at h
    simp only [canonical, Number.canonical, Binary.canonical_eq_of_same h]
  | string s, string t, h => by
    simp only [same, beq_iff_eq] at h
    rw [h]
  | array xs, array ys, h => by
    simp only [same] at h
    simp only [canonical, canonicalItems_eq_of_same h]
  | object xs, object ys, h => by
    simp only [same] at h
    simp only [canonical, canonicalFields_eq_of_same h]

theorem canonicalItems_eq_of_same :
    ∀ {xs ys : List Json}, sameItems xs ys = true → canonicalItems xs = canonicalItems ys
  | [], [], _ => rfl
  | x :: xs, y :: ys, h => by
    simp only [sameItems, Bool.and_eq_true] at h
    simp only [canonicalItems, canonical_eq_of_same h.1, canonicalItems_eq_of_same h.2]

theorem canonicalFields_eq_of_same {bound : Option String} : ∀ {xs ys : Sorted Json bound},
    sameFields xs ys = true → canonicalFields xs = canonicalFields ys
  | .nil, .nil, _ => rfl
  | .cons k x _ xs, .cons l y _ ys, h => by
    simp only [sameFields, Bool.and_eq_true, beq_iff_eq] at h
    obtain ⟨⟨rfl, hvalue⟩, hrest⟩ := h
    simp only [canonicalFields, canonical_eq_of_same hvalue, canonicalFields_eq_of_same hrest]

end

mutual

theorem canonical_canonical : ∀ x : Json, x.canonical.canonical = x.canonical
  | null => rfl
  | bool b => rfl
  | number (.int z) => rfl
  | number (.float x) => by simp only [canonical, Number.canonical, Binary.canonical_canonical]
  | string s => rfl
  | array xs => by simp only [canonical, canonicalItems_canonicalItems xs]
  | object xs => by simp only [canonical, canonicalFields_canonicalFields xs]

theorem canonicalItems_canonicalItems :
    ∀ xs : List Json, canonicalItems (canonicalItems xs) = canonicalItems xs
  | [] => rfl
  | x :: xs => by simp only [canonicalItems, canonical_canonical x, canonicalItems_canonicalItems xs]

theorem canonicalFields_canonicalFields {bound : Option String} : ∀ xs : Sorted Json bound,
    canonicalFields (canonicalFields xs) = canonicalFields xs
  | .nil => rfl
  | .cons k x _ xs => by
    simp only [canonicalFields, canonical_canonical x, canonicalFields_canonicalFields xs]

end

theorem string?_canonical (v : Json) : v.canonical.string? = v.string? := by cases v <;> rfl

theorem field?_canonical (k : String) (v : Json) :
    v.canonical.field? k = (v.field? k).map canonical := by
  cases v with
  | object fields =>
    simp only [canonical, field?, canonicalFields_eq_map]
    exact Dict.get?_map canonical fields k
  | _ => rfl

theorem single?_canonical (v : Json) :
    v.canonical.single?.map Binary.canonical = v.single?.map Binary.canonical := by
  cases v with
  | number n =>
    cases n with
    | int z => rfl
    | float x =>
      exact congrArg some (Binary.canonical_convert FloatFormat.double_infinity_pos x)
  | _ => rfl

theorem count?_canonical (v : Json) : v.canonical.count? = v.count? := by
  cases v with
  | number n =>
    cases n with
    | int z => rfl
    | float x =>
      by_cases h : x.magnitude.val = 0
      · have hzero : ∀ z : Binary64, z.magnitude.val = 0 → count? (number (.float z)) = some 0 := by
          intro z hz
          have hfinite : z.isFinite = true := by
            simp [Binary.isFinite, hz, FloatFormat.double_infinity_pos]
          have hunits : z.units = 0 := by simp [Binary.units, hz]
          simp [count?, hfinite, Binary.floorMagnitude, hunits]
        simp only [canonical, Number.canonical, Binary.canonical_of_zero h]
        rw [hzero _ rfl, hzero x h]
      · simp only [canonical, Number.canonical, Binary.canonical_of_ne_zero h]
  | _ => rfl

theorem nodeIds_canonical (v : Json) : v.canonical.nodeIds = v.nodeIds := by
  have hid : ∀ item : Json, item.canonical.nodeId? = item.nodeId? := by
    intro item
    simp only [nodeId?, string?_canonical, field?_canonical, Option.bind_map, Function.comp_def]
  cases v with
  | array items =>
    simp only [canonical, nodeIds, canonicalItems_eq_map, List.filterMap_map, Function.comp_def, hid]
  | _ => rfl

theorem canonical_getD (o : Option Binary32) :
    (o.getD .zero).canonical = (o.map Binary.canonical).getD .zero := by
  cases o <;> rfl

theorem vector?_canonical (n : Nat) (v : Json) :
    (v.canonical.vector? n).map (·.map Binary.canonical) =
      (v.vector? n).map (·.map Binary.canonical) := by
  cases v with
  | array items =>
    simp only [canonical, vector?, canonicalItems_eq_map, Option.map_some, List.map_append,
      List.map_map, ← List.map_take, Function.comp_def, canonical_getD, single?_canonical,
      List.length_map]
  | object fields =>
    have hcomponent : ∀ names : List String,
        (names.findSome? fun k ↦ (Dict.get? (canonicalFields fields) k).bind single?).map
            Binary.canonical =
          (names.findSome? fun k ↦ (Dict.get? fields k).bind single?).map Binary.canonical := by
      intro names
      simp only [canonicalFields_eq_map, Dict.get?_map, List.map_findSome?, Function.comp_def,
        Option.map_bind, Option.bind_map, single?_canonical]
    simp only [canonical, vector?, Option.map_some, List.map_map, Function.comp_def, canonical_getD,
      hcomponent]
  | number m =>
    have hmap : ∀ o : Option Binary32, (o.map (List.replicate n)).map (·.map Binary.canonical) =
        (o.map Binary.canonical).map (List.replicate n) := by
      intro o
      cases o <;> simp
    have hsingle := single?_canonical (number m)
    simp only [canonical] at hsingle
    simp only [canonical, vector?, hmap, hsingle]
  | _ => rfl

end Json

end NodeShader

import NodeShader.Graph.Document
import NodeShader.Proofs.Precision

namespace NodeShader

theorem lookup_eq_find? {α : Type} (k : String) (es : List (String × α)) :
    lookup k es = (es.find? (·.1 == k)).map (·.2) := by
  induction es with
  | nil => rfl
  | cons e es ih => by_cases h : e.1 = k <;> simp [lookup, h, ih]

theorem Dict.countP_keys_le_one {α : Type} (d : Dict α) (k : String) :
    d.entries.countP (·.1 == k) ≤ 1 := by
  have hascending := d.ascending
  generalize d.entries = es at hascending
  induction es with
  | nil => exact Nat.zero_le 1
  | cons e es ih =>
    obtain ⟨he, hes⟩ := List.pairwise_cons.1 hascending
    by_cases hk : e.1 = k
    · have hnone : es.countP (·.1 == k) = 0 := by
        refine List.countP_eq_zero.2 fun f hf hfk ↦ ?_
        have hlt := he f hf
        rw [hk, ← eq_of_beq hfk] at hlt
        exact String.lt_irrefl _ hlt
      simp [hk, hnone]
    · simpa [hk] using ih hes

theorem Dict.mem_of_mem_ofList {α : Type} {es : List (String × α)} {e : String × α}
    (h : e ∈ (ofList es).entries) : e ∈ es := by
  have hfold : ∀ d : Dict α, e ∈ (es.foldl (fun d e ↦ d.insert e.1 e.2) d).entries →
      e ∈ d.entries ∨ e ∈ es := by
    clear h
    induction es with
    | nil => exact fun d ↦ .inl
    | cons f es ih =>
      intro d h
      rcases ih (d.insert f.1 f.2) h with h | h
      · rcases Sorted.mem_of_mem_insert h with rfl | h
        · exact .inr List.mem_cons_self
        · exact .inl h
      · exact .inr (List.mem_cons_of_mem f h)
  exact (hfold empty h).resolve_left List.not_mem_nil

namespace Json

theorem depthItems_le {items : List Json} {room : Nat} (h : ∀ v ∈ items, v.depth ≤ room) :
    depthItems items ≤ room := by
  induction items with
  | nil => exact Nat.zero_le room
  | cons v items ih =>
    obtain ⟨hv, hitems⟩ := List.forall_mem_cons.1 h
    exact Nat.max_le.2 ⟨hv, ih hitems⟩

theorem depthFields_le {bound : Option String} {fields : Sorted Json bound} {room : Nat}
    (h : ∀ e ∈ fields.entries, e.2.depth ≤ room) : depthFields fields ≤ room := by
  induction fields with
  | nil => exact Nat.zero_le room
  | cons k v hk fields ih =>
    obtain ⟨hv, hfields⟩ := List.forall_mem_cons.1 h
    exact Nat.max_le.2 ⟨hv, ih hfields⟩

end Json

namespace Document

open Json

theorem ofItems_eq_map (items : List Json) : ofItems items = items.map ofJson := by
  induction items with
  | nil => rfl
  | cons v items ih => simp [ofItems, ih]

theorem ofFields_eq_map {bound : Option String} (fields : Sorted Json bound) :
    ofFields fields = fields.entries.map fun e ↦ (some e.1, ofJson e.2) := by
  induction fields with
  | nil => rfl
  | cons k v hk fields ih => simp [ofFields, Sorted.entries, ih]

mutual

/-- A value is read back wherever there is room for it. -/
theorem toJson?_ofJson {room : Nat} :
    ∀ v : Json, v.depth ≤ room → (ofJson v).toJson? room = some v
  | .null, _ | .bool _, _ | .number _, _ | .string _, _ => rfl
  | .array items, h => by
    obtain ⟨room, rfl⟩ := Nat.exists_eq_add_of_le' (Nat.le_trans (Nat.le_add_left 1 _) h)
    have hread := itemsToJson?_ofItems items (Nat.le_of_succ_le_succ h)
    simp [ofJson, toJson?, hread]
  | .object fields, h => by
    obtain ⟨room, rfl⟩ := Nat.exists_eq_add_of_le' (Nat.le_trans (Nat.le_add_left 1 _) h)
    have hread := fieldsToJson?_ofFields fields (Nat.le_of_succ_le_succ h)
    simp [ofJson, toJson?, hread, Json.ofFields]

theorem itemsToJson?_ofItems {room : Nat} : ∀ items : List Json, depthItems items ≤ room →
    itemsToJson? room (ofItems items) = some items
  | [], _ => rfl
  | v :: items, h => by
    obtain ⟨hv, hitems⟩ := Nat.max_le.1 h
    simp [ofItems, itemsToJson?, toJson?_ofJson v hv, itemsToJson?_ofItems items hitems]

theorem fieldsToJson?_ofFields {room : Nat} {bound : Option String} :
    ∀ fields : Sorted Json bound, depthFields fields ≤ room →
      fieldsToJson? room (ofFields fields) = some fields.entries
  | .nil, _ => rfl
  | .cons k v _ fields, h => by
    obtain ⟨hv, hfields⟩ := Nat.max_le.1 h
    simp [ofFields, fieldsToJson?, Sorted.entries, toJson?_ofJson v hv,
      fieldsToJson?_ofFields fields hfields]

end

theorem find?_known {names : List String} {k : String} (hk : k ∈ names)
    (fields : List (Option String × Document)) :
    (fields.filter fun f ↦ f.1.any (names.contains ·)).find? (·.1 == some k) =
      fields.find? (·.1 == some k) := by
  rw [List.find?_filter]
  congr 1
  funext f
  by_cases hf : f.1 = some k <;> simp [hf, hk]

theorem entries?_object (names : List String) {fields : List (Option String × Document)}
    (hkeys : fields.all (·.1.isSome)) (honce : ∀ k, fields.countP (·.1 == some k) ≤ 1) :
    entries? names (object fields) =
      some (names.map fun k ↦ (fields.find? (·.1 == some k)).map (·.2)) := by
  have hknown : ∀ k, (fields.filter fun f ↦ f.1.any (names.contains ·)).countP (·.1 == some k) ≤ 1 :=
    fun k ↦ Nat.le_trans List.filter_sublist.countP_le (honce k)
  have hcheck : (fields.all (·.1.isSome) && names.all fun k ↦
      decide ((fields.filter fun f ↦ f.1.any (names.contains ·)).countP (·.1 == some k) ≤ 1)) :=
    Bool.and_eq_true_iff.2 ⟨hkeys, List.all_eq_true.2 fun k _ ↦ decide_eq_true (hknown k)⟩
  rw [entries?, if_pos hcheck]
  congr 1
  exact List.map_congr_left fun k hk ↦ by rw [find?_known hk]

mutual

theorem depth_of_toJson? {room : Nat} {v : Json} :
    ∀ d : Document, d.toJson? room = some v → v.depth ≤ room
  | null, h | bool b, h => by
    cases h
    exact Nat.zero_le room
  | number n, h => by
    obtain ⟨n, -, rfl⟩ := Option.map_eq_some_iff.1 h
    exact Nat.zero_le room
  | string s, h => by
    obtain ⟨s, -, rfl⟩ := Option.map_eq_some_iff.1 h
    exact Nat.zero_le room
  | array ds, h => by
    cases room with
    | zero => cases h
    | succ room =>
      obtain ⟨vs, hvs, rfl⟩ := Option.map_eq_some_iff.1 h
      exact Nat.succ_le_succ (depthItems_le (depth_of_itemsToJson? ds hvs))
  | object fs, h => by
    cases room with
    | zero => cases h
    | succ room =>
      obtain ⟨es, hes, rfl⟩ := Option.map_eq_some_iff.1 h
      have hread := depth_of_fieldsToJson? fs hes
      exact Nat.succ_le_succ (depthFields_le fun e he ↦ hread e (Dict.mem_of_mem_ofList he))

theorem depth_of_itemsToJson? {room : Nat} {vs : List Json} : ∀ ds : List Document,
    itemsToJson? room ds = some vs → ∀ v ∈ vs, v.depth ≤ room
  | [], h => by
    cases h
    exact nofun
  | d :: ds, h => by
    obtain ⟨v, hv, h⟩ := Option.bind_eq_some_iff.1 h
    obtain ⟨vs', hvs, h⟩ := Option.bind_eq_some_iff.1 h
    cases h
    exact List.forall_mem_cons.2 ⟨depth_of_toJson? d hv, depth_of_itemsToJson? ds hvs⟩

theorem depth_of_fieldsToJson? {room : Nat} {es : List (String × Json)} :
    ∀ fs : List (Option String × Document), fieldsToJson? room fs = some es →
      ∀ e ∈ es, e.2.depth ≤ room
  | [], h => by
    cases h
    exact nofun
  | (k, d) :: fs, h => by
    obtain ⟨k, -, h⟩ := Option.bind_eq_some_iff.1 h
    obtain ⟨v, hv, h⟩ := Option.bind_eq_some_iff.1 h
    obtain ⟨es', hes, h⟩ := Option.bind_eq_some_iff.1 h
    cases h
    exact List.forall_mem_cons.2 ⟨depth_of_toJson? d hv, depth_of_fieldsToJson? fs hes⟩

end

/-- A record finds its entries in an object by their names, whatever else stands there. -/
theorem entries?_ofFields (names : List String) (fields : List (String × Json)) :
    entries? names (ofJson (.ofFields fields)) =
      some (names.map fun k ↦ (lookup k fields.reverse).map ofJson) := by
  have hfind : ∀ k, ((Dict.ofList fields).entries.find? (·.1 == k)).map (·.2) = lookup k fields.reverse :=
    fun k ↦ by rw [← lookup_eq_find?, ← Dict.get?_ofList, Dict.get?]
  rw [Json.ofFields, ofJson, ofFields_eq_map, entries?_object]
  · simp [List.find?_map, Function.comp_def, ← hfind]
  · simp
  · intro k
    simpa [List.countP_map, Function.comp_def] using (Dict.ofList fields).countP_keys_le_one k

@[simp] theorem required_some {α : Type} (read : Document → Option α) (d : Document) :
    required read (some d) = read d := rfl

@[simp] theorem optional_some {α : Type} (default : α) (read : Document → Option α) (d : Document) :
    optional default read (some d) = read d := rfl

@[simp] theorem string?_ofJson (s : String) : string? (ofJson (.string s)) = some s := rfl

theorem list?_ofJson {α : Type} {read : Document → Option α} {write : α → Json} {xs : List α}
    (h : ∀ x ∈ xs, read (ofJson (write x)) = some x) :
    list? read (ofJson (.array (xs.map write))) = some xs := by
  simp only [ofJson, list?, array?, Option.bind_some, ofItems_eq_map, List.map_map]
  induction xs with
  | nil => rfl
  | cons x xs ih =>
    obtain ⟨hx, hxs⟩ := List.forall_mem_cons.1 h
    simp [hx, ih hxs]

theorem exists_of_mem_list? {α : Type} {read : Document → Option α} {d : Document} {xs : List α}
    (h : list? read d = some xs) : ∀ x ∈ xs, ∃ d', read d' = some x := by
  rw [list?, Option.bind_eq_some_iff] at h
  obtain ⟨items, -, h⟩ := h
  induction items generalizing xs with
  | nil =>
    cases h
    exact nofun
  | cons d items ih =>
    rw [List.mapM_cons] at h
    obtain ⟨x, hx, h⟩ := Option.bind_eq_some_iff.1 h
    obtain ⟨xs', hxs, h⟩ := Option.bind_eq_some_iff.1 h
    cases h
    exact List.forall_mem_cons.2 ⟨⟨d, hx⟩, ih hxs⟩

end Document

open Document

@[simp] theorem GlslType.ofDocument?_name (t : GlslType) :
    ofDocument? (ofJson (.string t.name)) = some t := ofName?_name t

theorem Wire.ofDocument?_toJson (w : Wire) : ofDocument? (ofJson w.toJson) = some w := by
  simp [ofDocument?, toJson, entries?_ofFields, lookup]

@[simp] theorem Wire.maybeOfDocument?_toJson (w : Option Wire) :
    maybeOfDocument? (ofJson ((w.map toJson).getD .null)) = some w := by
  cases w with
  | none => rfl
  | some w => exact congrArg (Option.map some) (ofDocument?_toJson w)

theorem InputSocket.ofDocument?_toJson (s : InputSocket) : ofDocument? (ofJson s.toJson) = some s := by
  simp [ofDocument?, toJson, entries?_ofFields, lookup]

theorem Socket.ofDocument?_toJson (s : Socket) : ofDocument? (ofJson s.toJson) = some s := by
  simp [ofDocument?, toJson, entries?_ofFields, lookup]

theorem Position.single?_coordinate {x : Binary32} (hx : x.isFinite) :
    single? (ofJson (coordinate x)) = some x := by
  rw [coordinate, if_pos hx]
  exact congrArg some (Binary.convert_convert FloatFormat.single_finer_double hx)

theorem Position.ofDocument?_toJson {p : Position} (hx : p.x.isFinite) (hy : p.y.isFinite) :
    ofDocument? (ofJson p.toJson) = some p := by
  simp [ofDocument?, toJson, entries?_ofFields, lookup, single?_coordinate hx, single?_coordinate hy]

theorem Params.ofDocument?_ofJson {params : Params} {room : Nat}
    (h : ∀ e ∈ params.entries, e.2.depth ≤ room) :
    Params.ofDocument? room (ofJson (.object params)) = some params := by
  have hread := fieldsToJson?_ofFields params (Json.depthFields_le h)
  simp [ofJson, Params.ofDocument?, hread]

theorem Node.ofDocument?_toJson {n : Node} {room : Nat}
    (hposition : n.position.x.isFinite ∧ n.position.y.isFinite)
    (hparams : ∀ e ∈ n.params.entries, e.2.depth ≤ room) :
    ofDocument? room (ofJson n.toJson) = some n := by
  have hinputs := list?_ofJson fun s (_ : s ∈ n.inputs) ↦ InputSocket.ofDocument?_toJson s
  have houtputs := list?_ofJson fun s (_ : s ∈ n.outputs) ↦ Socket.ofDocument?_toJson s
  simp [ofDocument?, toJson, entries?_ofFields, lookup, hinputs, houtputs,
    Position.ofDocument?_toJson hposition.1 hposition.2, Params.ofDocument?_ofJson hparams]

def Graph.Fits (g : Graph) (room : Nat) : Prop :=
  ∀ n ∈ g.nodes, ∀ e ∈ n.params.entries, e.2.depth ≤ room

theorem Params.fits_of_ofDocument? {room : Nat} {d : Document} {params : Params}
    (h : Params.ofDocument? room d = some params) :
    ∀ e ∈ params.entries, e.2.depth ≤ room := by
  unfold Params.ofDocument? at h
  split at h
  · obtain ⟨es, hes, rfl⟩ := Option.map_eq_some_iff.1 h
    exact fun e he ↦ depth_of_fieldsToJson? _ hes e (Dict.mem_of_mem_ofList he)
  · cases h

theorem Node.fits_of_ofDocument? {room : Nat} {d : Document} {n : Node}
    (h : ofDocument? room d = some n) : ∀ e ∈ n.params.entries, e.2.depth ≤ room := by
  obtain ⟨entries, -, h⟩ := Option.bind_eq_some_iff.1 h
  split at h
  · rename_i params _ _
    obtain ⟨id, -, h⟩ := Option.bind_eq_some_iff.1 h
    obtain ⟨type, -, h⟩ := Option.bind_eq_some_iff.1 h
    obtain ⟨position, -, h⟩ := Option.bind_eq_some_iff.1 h
    obtain ⟨read, hread, h⟩ := Option.bind_eq_some_iff.1 h
    obtain ⟨inputs, -, h⟩ := Option.bind_eq_some_iff.1 h
    obtain ⟨outputs, -, h⟩ := Option.bind_eq_some_iff.1 h
    cases h
    cases params with
    | none =>
      cases hread
      exact nofun
    | some d => exact Params.fits_of_ofDocument? hread
  · cases h

/-- Every graph that is read fits the room that it was read with. -/
theorem Graph.fits_of_ofDocument? {room : Nat} {d : Document} {g : Graph}
    (h : ofDocument? room d = some g) : g.Fits room := by
  obtain ⟨entries, -, h⟩ := Option.bind_eq_some_iff.1 h
  split at h
  · rename_i nodes
    obtain ⟨read, hread, h⟩ := Option.bind_eq_some_iff.1 h
    cases h
    cases nodes with
    | none =>
      cases hread
      exact nofun
    | some d =>
      intro n hn
      obtain ⟨d', hd'⟩ := exists_of_mem_list? hread n hn
      exact Node.fits_of_ofDocument? hd'
  · cases h

/-- A graph is read back as it was written, where the positions of its nodes are finite and there is
room for its parameters. -/
theorem Graph.toJson_roundTrip {g : Graph} {room : Nat}
    (hpositions : ∀ n ∈ g.nodes, n.position.x.isFinite ∧ n.position.y.isFinite)
    (hfits : g.Fits room) : ofDocument? room (ofJson g.toJson) = some g := by
  have hnodes := list?_ofJson fun n hn ↦
    Node.ofDocument?_toJson (hpositions n hn) (hfits n hn)
  simp [ofDocument?, toJson, entries?_ofFields, lookup, hnodes]

def Sample.drawing : Document :=
  .object [(some "zoom", .null), (some "nodes", .array [
    .object [(some "type", .string "Mix"), (some "id", .string ""),
      (some "position", .object [(some "y", .number (some (.float (.ofBits 0x36a0000000000000)))),
        (some "x", .number (some (.float (.ofBits 0x8000000000000000))))]),
      (some "params", .object [(some "t", .object [(some "w", .array []), (some "a", .null),
          (some "w", .array [.bool true])]),
        (some "a", .number (some (.int (-9223372036854775808))))]),
      (some "inputs", .array [
        .object [(some "key", .string "a"), (some "type", .string "vec3"), (some "connection", .null)],
        .object [(some "connection", .array [.string "é", .string "out"]), (some "key", .string "b"),
          (some "type", .string "float"), (some "label", .string "B")]])],
    .array [.string "é", .string "UV", .array [.number (some (.int 16777217)), .number (some (.int (-3)))]]])]

theorem Graph.toJson_roundTrip_drawing :
    ∃ g, ofDocument? 2 Sample.drawing = some g ∧
      g.nodes.map (fun n ↦ (n.position.x.toBits, n.position.y.toBits)) =
        [(0x80000000, 1), (0x4b800000, 0xc0400000)] ∧
      g.nodes.map (fun n ↦ n.inputs.map (·.wire)) = [[none, some ⟨"é", "out"⟩], []] ∧
      ofDocument? 2 (ofJson g.toJson) = some g := by
  have hread : (ofDocument? 2 Sample.drawing).map (fun g ↦
      (g.nodes.map (fun n ↦ (n.position.x.toBits, n.position.y.toBits)),
        g.nodes.map (fun n ↦ n.inputs.map (·.wire)),
        g.nodes.all fun n ↦ n.position.x.isFinite ∧ n.position.y.isFinite)) =
      some ([(0x80000000, 1), (0x4b800000, 0xc0400000)], [[none, some ⟨"é", "out"⟩], []], true) := by
    decide +kernel
  obtain ⟨g, hg, hfacts⟩ := Option.map_eq_some_iff.1 hread
  simp only [Prod.mk.injEq, List.all_eq_true, decide_eq_true_eq] at hfacts
  obtain ⟨hpositions, hwires, hfinite⟩ := hfacts
  exact ⟨g, hg, hpositions, hwires, toJson_roundTrip hfinite (fits_of_ofDocument? hg)⟩

end NodeShader

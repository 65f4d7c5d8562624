import NodeShader.Number.Binary

namespace NodeShader

theorem twoPow_sub_mul {j k : Nat} (h : j ≤ k) : twoPow (k - j) * twoPow j = twoPow k :=
  Nat.pow_sub_mul_pow 2 h

theorem log2_mul_twoPow {m : Nat} (hm : m ≠ 0) (s : Nat) : (m * twoPow s).log2 = m.log2 + s := by
  have hpos : m * twoPow s ≠ 0 := Nat.mul_ne_zero hm (Nat.ne_of_gt (twoPow_pos s))
  have hlow : twoPow m.log2 ≤ m := Nat.log2_self_le hm
  have hhigh : m < twoPow (m.log2 + 1) := Nat.lt_log2_self
  refine (Nat.log2_eq_iff hpos).2 ⟨?_, ?_⟩
  · change twoPow (m.log2 + s) ≤ _
    rw [twoPow_add]
    exact Nat.mul_le_mul_right _ hlow
  · change _ < twoPow (m.log2 + s + 1)
    rw [Nat.add_right_comm, twoPow_add]
    exact Nat.mul_lt_mul_of_pos_right hhigh (twoPow_pos s)

theorem roundHalfEven_mul {den : Nat} (hd : 0 < den) (q : Nat) : roundHalfEven (q * den) den = q := by
  rw [roundHalfEven_of_dvd hd (Nat.dvd_mul_left den q), Nat.mul_div_cancel q hd]

namespace FloatFormat

/-- The bit pattern of a multiple of the least positive number: small ones are their own pattern, others
have a leading digit that is not written. -/
inductive Encodes (F : FloatFormat) : (pattern units : Nat) → Prop
  | small {m : Nat} (hm : m < twoPow F.fractionBits) : Encodes F m m
  | scaled {u : Nat} (s : Nat) (hl : twoPow F.fractionBits ≤ u) (hu : u < 2 * twoPow F.fractionBits) :
      Encodes F (s * twoPow F.fractionBits + u) (u * twoPow s)

variable {F G : FloatFormat} {p m u k num den : Nat}

theorem log2_of_leading (hl : twoPow F.fractionBits ≤ u) (hu : u < 2 * twoPow F.fractionBits) :
    u ≠ 0 ∧ u.log2 = F.fractionBits := by
  have hne : u ≠ 0 := by
    have hpos := twoPow_pos F.fractionBits
    omega
  rw [← twoPow_succ] at hu
  exact ⟨hne, (Nat.log2_eq_iff hne).2 ⟨hl, hu⟩⟩

theorem encodes_units (x : Binary F) : F.Encodes x.magnitude x.units := by
  have hsplit := Nat.div_add_mod' x.magnitude.val (twoPow F.fractionBits)
  have hrest := Nat.mod_lt x.magnitude.val (twoPow_pos F.fractionBits)
  unfold Binary.units
  dsimp only
  split
  · rename_i hzero
    rw [hzero, Nat.zero_mul, Nat.zero_add] at hsplit
    exact .small (hsplit ▸ hrest)
  · rename_i hpos
    obtain ⟨s, hs⟩ := Nat.exists_eq_succ_of_ne_zero hpos
    have hscaled := Encodes.scaled (F := F) s
      (u := x.magnitude.val % twoPow F.fractionBits + twoPow F.fractionBits) (by omega) (by omega)
    have hpattern : s * twoPow F.fractionBits +
        (x.magnitude.val % twoPow F.fractionBits + twoPow F.fractionBits) = x.magnitude.val := by
      rw [hs, Nat.succ_mul] at hsplit
      omega
    rwa [hpattern, show s = x.magnitude.val / twoPow F.fractionBits - 1 by omega] at hscaled

namespace Encodes

theorem units_eq (h : F.Encodes p m) {x : Binary F} (hx : x.magnitude.val = p) : x.units = m := by
  have hpos := twoPow_pos F.fractionBits
  cases h with
  | small hm => simp [Binary.units, hx, Nat.div_eq_of_lt hm]
  | scaled s hl hu =>
    obtain ⟨r, rfl⟩ := Nat.exists_eq_add_of_le hl
    have hr : r < twoPow F.fractionBits := by omega
    have hpattern : x.magnitude.val = twoPow F.fractionBits * (s + 1) + r := by
      rw [hx, Nat.mul_succ, Nat.mul_comm]
      omega
    simp only [Binary.units, hpattern, Nat.mul_add_div hpos, Nat.mul_add_mod, Nat.div_eq_of_lt hr,
      Nat.mod_eq_of_lt hr, Nat.add_zero, Nat.succ_ne_zero, if_false, Nat.add_sub_cancel]
    rw [Nat.add_comm]

/-- A number that the format holds is not rounded. -/
theorem nearest (h : F.Encodes p m) (hp : p < F.infinity) (hd : 0 < den)
    (hratio : num * twoPow F.unitExponent = m * den) : F.nearest num den = p := by
  simp only [FloatFormat.nearest, hratio, Nat.mul_div_cancel m hd]
  refine (congrArg (min F.infinity) ?_).trans (Nat.min_eq_right (Nat.le_of_lt hp))
  cases h with
  | small hm =>
    have hshift : p.log2 - F.fractionBits = 0 := by
      rcases Nat.eq_zero_or_pos p with rfl | hpos
      · exact Nat.zero_sub _
      · have hlog := (Nat.log2_lt (Nat.ne_of_gt hpos)).2 hm
        omega
    rw [hshift, Nat.zero_mul, Nat.zero_add, twoPow_zero, Nat.mul_one, roundHalfEven_mul hd]
  | @scaled u s hl hu =>
    obtain ⟨hne, hlog⟩ := log2_of_leading hl hu
    have hshift : (u * twoPow s).log2 - F.fractionBits = s := by
      rw [log2_mul_twoPow hne, hlog, Nat.add_sub_cancel_left]
    rw [hshift, Nat.mul_assoc, Nat.mul_comm (twoPow s),
      roundHalfEven_mul (Nat.mul_pos hd (twoPow_pos s))]

/-- The digits of a finite number and how far they are shifted. -/
theorem digits (h : F.Encodes p m) (hp : p < F.infinity) :
    m = 0 ∨ ∃ u s, u ≠ 0 ∧ u.log2 ≤ F.fractionBits ∧ s + 2 ≤ twoPow F.exponentBits ∧
      m = u * twoPow s := by
  cases h with
  | small hm =>
    by_cases hzero : p = 0
    · exact .inl hzero
    · have hlog := (Nat.log2_lt hzero).2 hm
      have hexponent := Nat.pos_of_mul_pos_right (Nat.lt_of_le_of_lt (Nat.zero_le p) hp)
      exact .inr ⟨p, 0, hzero, by omega, by omega, (Nat.mul_one p).symm⟩
  | @scaled u s hl hu =>
    obtain ⟨hne, hlog⟩ := log2_of_leading hl hu
    have hlt : (s + 1) * twoPow F.fractionBits < (twoPow F.exponentBits - 1) * twoPow F.fractionBits := by
      rw [infinity] at hp
      rw [Nat.succ_mul]
      omega
    have hexponent := Nat.lt_of_mul_lt_mul_right hlt
    exact .inr ⟨u, s, hne, Nat.le_of_eq hlog, by omega, rfl⟩

end Encodes

/-- The second format holds every finite number of the first one, and none as a small one but zero. -/
structure Finer (F G : FloatFormat) : Prop where
  fraction : F.fractionBits ≤ G.fractionBits
  unit : F.unitExponent + G.fractionBits ≤ G.unitExponent
  range : twoPow F.exponentBits + (G.unitExponent - F.unitExponent) < twoPow G.exponentBits

theorem single_finer_double : Finer single double := ⟨by decide, by decide, by decide⟩

theorem Finer.encodes (hFG : Finer F G) (h : F.Encodes p m) (hp : p < F.infinity) :
    ∃ q, q < G.infinity ∧ G.Encodes q (m * twoPow (G.unitExponent - F.unitExponent)) := by
  obtain ⟨hfraction, hunit, hrange⟩ := hFG
  generalize hk : G.unitExponent - F.unitExponent = k at hrange ⊢
  have hexponent := twoPow_pos F.exponentBits
  rcases h.digits hp with rfl | ⟨u, s, hne, hlog, hs, rfl⟩
  · refine ⟨0, Nat.mul_pos (by omega) (twoPow_pos _), ?_⟩
    rw [Nat.zero_mul]
    exact .small (twoPow_pos _)
  · -- The digits are moved up until the first of them leads.
    obtain ⟨j, hj⟩ := Nat.exists_eq_add_of_le (Nat.le_trans hlog hfraction)
    obtain ⟨i, rfl⟩ := Nat.exists_eq_add_of_le (show j ≤ k by omega)
    have hunits : u * twoPow s * twoPow (j + i) = u * twoPow j * twoPow (s + i) := by
      simp only [twoPow_add, Nat.mul_assoc, Nat.mul_left_comm]
    have hl : twoPow G.fractionBits ≤ u * twoPow j := by
      rw [hj, twoPow_add]
      exact Nat.mul_le_mul_right _ (Nat.log2_self_le hne)
    have hu : u * twoPow j < 2 * twoPow G.fractionBits := by
      rw [hj, ← twoPow_succ, Nat.add_right_comm, twoPow_add]
      exact Nat.mul_lt_mul_of_pos_right Nat.lt_log2_self (twoPow_pos j)
    refine ⟨(s + i) * twoPow G.fractionBits + u * twoPow j, ?_, ?_⟩
    · calc (s + i) * twoPow G.fractionBits + u * twoPow j
        _ < (s + i + 2) * twoPow G.fractionBits := by rw [Nat.add_mul (s + i) 2]; omega
        _ ≤ G.infinity := Nat.mul_le_mul_right _ (by omega)
    · rw [hunits]
      exact .scaled (s + i) hl hu

end FloatFormat

namespace Binary

open FloatFormat

variable {F G : FloatFormat} {x : Binary F}

theorem convert_of_isFinite (hx : x.isFinite) :
    x.convert G = ofRatio x.negative x.units (twoPow F.unitExponent) := if_pos hx

/-- In a finer format the number is the same, as so many times the least positive one of that format. -/
theorem convert_finer (hFG : Finer F G) (hx : x.isFinite) :
    (x.convert G).isFinite ∧
      (x.convert G).units = x.units * twoPow (G.unitExponent - F.unitExponent) := by
  obtain ⟨q, hq, hencodes⟩ := hFG.encodes (encodes_units x) (of_decide_eq_true hx)
  have hmagnitude : (x.convert G).magnitude.val = q := by
    rw [convert_of_isFinite hx]
    refine hencodes.nearest hq (twoPow_pos _) ?_
    rw [Nat.mul_assoc, twoPow_sub_mul (Nat.le_of_add_right_le hFG.unit)]
  exact ⟨decide_eq_true (hmagnitude ▸ hq), hencodes.units_eq hmagnitude⟩

/-- A number that went to a finer format comes back as it was, its sign included. -/
theorem convert_convert (hFG : Finer F G) (hx : x.isFinite) : (x.convert G).convert F = x := by
  obtain ⟨hfinite, hunits⟩ := convert_finer hFG hx
  have hsign : (x.convert G).negative = x.negative := by rw [convert_of_isFinite hx]; rfl
  have hnearest : F.nearest (x.convert G).units (twoPow G.unitExponent) = x.magnitude.val := by
    refine (encodes_units x).nearest (of_decide_eq_true hx) (twoPow_pos _) ?_
    rw [hunits, Nat.mul_assoc, twoPow_sub_mul (Nat.le_of_add_right_le hFG.unit)]
  rw [convert_of_isFinite hfinite, hsign]
  unfold ofRatio
  congr 1
  exact Fin.ext hnearest

end Binary

end NodeShader

import StackBridge.Double.Basic

/-!
Integers that are floats already. Rounding gives back every finite magnitude
that is rounded, so the float of an integer that a float truncates to is that
float, if nothing was cut off; only the sign of a zero is lost on the way.
`Double.canonical` is what is left of a float when the zeros are not told
apart.
-/

namespace StackBridge

theorem divNearest_mul (m : Nat) {d : Nat} (hd : 0 < d) : divNearest (m * d) d = m := by
  unfold divNearest
  simp only [Nat.mul_div_cancel m hd, Nat.mul_mod_left]
  rw [if_pos]
  simp [hd]

namespace Double

variable {x : Double}

-- ============================================================== the fields

theorem magnitude_lt (x : Double) : x.magnitude < twoPow 63 := Nat.mod_lt _ (twoPow_pos 63)

theorem bits_lt (x : Double) : x.bits.toNat < twoPow 63 + twoPow 63 := x.bits.toNat_lt

/-- The bits are the sign and the magnitude. -/
theorem bits_eq (x : Double) :
    x.bits.toNat = if x.negative then twoPow 63 + x.magnitude else x.magnitude := by
  have hlt := bits_lt x
  unfold negative magnitude
  by_cases h : twoPow 63 ≤ x.bits.toNat
  · have hsub : x.bits.toNat = twoPow 63 + (x.bits.toNat - twoPow 63) := by omega
    rw [if_pos (decide_eq_true h), hsub, Nat.add_mod_left, Nat.mod_eq_of_lt (by omega)]
  · have hnot : decide (twoPow 63 ≤ x.bits.toNat) = false := decide_eq_false h
    rw [hnot, if_neg (by decide), Nat.mod_eq_of_lt (by omega)]

theorem ofMagnitude_bits (negative : Bool) {m : Nat} (hm : m < twoPow 63) :
    (ofMagnitude negative m).bits.toNat = if negative then twoPow 63 + m else m := by
  have hsize : UInt64.size = twoPow 63 + twoPow 63 := rfl
  unfold ofMagnitude ofBits
  cases negative with
  | false =>
      refine UInt64.toNat_ofNat_of_lt' ?_
      rw [hsize]
      simp only [Bool.false_eq_true, if_false]
      omega
  | true =>
      refine UInt64.toNat_ofNat_of_lt' ?_
      rw [hsize]
      simp only [if_true]
      omega

theorem ofMagnitude_magnitude (negative : Bool) {m : Nat} (hm : m < twoPow 63) :
    (ofMagnitude negative m).magnitude = m := by
  unfold magnitude
  rw [ofMagnitude_bits negative hm]
  cases negative with
  | false => exact Nat.mod_eq_of_lt hm
  | true =>
      rw [if_pos rfl, Nat.add_mod_left]
      exact Nat.mod_eq_of_lt hm

/-- The sign of a magnitude put under a sign. -/
theorem ofMagnitude_negative (negative : Bool) {m : Nat} (hm : m < twoPow 63) :
    (ofMagnitude negative m).negative = negative := by
  unfold Double.negative
  rw [ofMagnitude_bits negative hm]
  cases negative with
  | false => exact decide_eq_false (by simp only [Bool.false_eq_true, if_false]; omega)
  | true => exact decide_eq_true (by simp only [if_true]; omega)

theorem infinityMagnitude_lt : infinityMagnitude < twoPow 63 := by decide

theorem one_pos : 0 < one := twoPow_pos 1074

/-- A number is put together again from its sign and its magnitude. -/
theorem ofMagnitude_self (x : Double) : ofMagnitude x.negative x.magnitude = x.untagged := by
  unfold ofMagnitude untagged
  rw [← bits_eq, UInt64.ofNat_toNat]

-- ================================================================ rounding

/-- A finite magnitude is rounded to itself. -/
theorem nearestMagnitude_units (hx : x.isFinite = true) :
    nearestMagnitude x.units 1 = x.magnitude := by
  have hfinite : x.magnitude < infinityMagnitude := of_decide_eq_true hx
  have hsplit : x.magnitude / twoPow 52 * twoPow 52 + x.magnitude % twoPow 52 = x.magnitude :=
    Nat.div_add_mod' ..
  have hfraction : x.magnitude % twoPow 52 < twoPow 52 := Nat.mod_lt _ (twoPow_pos 52)
  unfold nearestMagnitude units
  rw [Nat.div_one]
  generalize x.magnitude / twoPow 52 = e at hsplit ⊢
  generalize x.magnitude % twoPow 52 = f at hsplit hfraction ⊢
  by_cases hexp : e = 0
  · -- below the normal range the magnitude counts the units
    rw [hexp, Nat.zero_mul, Nat.zero_add] at hsplit
    have hshift : f.log2 - 52 = 0 := by
      by_cases hzero : f = 0
      · rw [hzero]
        rfl
      · have hlog := (Nat.log2_lt hzero).mpr hfraction
        omega
    have hself := divNearest_mul f (Nat.lt_succ_self 0)
    rw [Nat.mul_one] at hself
    dsimp only
    rw [if_pos hexp, hshift, Nat.zero_mul, Nat.zero_add]
    show min (divNearest f 1) infinityMagnitude = x.magnitude
    rw [hself, hsplit]
    exact Nat.min_eq_left (Nat.le_of_lt hfinite)
  · obtain ⟨j, rfl⟩ : ∃ j, e = j + 1 := Nat.exists_eq_succ_of_ne_zero hexp
    rw [Nat.succ_mul] at hsplit
    have hlow := twoPow_pos 52
    have hlog : ((twoPow 52 + f) * twoPow j).log2 = 52 + j := by
      have hpos : (twoPow 52 + f) * twoPow j ≠ 0 :=
        Nat.mul_ne_zero (by omega) (Nat.pos_iff_ne_zero.mp (twoPow_pos j))
      refine (Nat.log2_eq_iff hpos).mpr ⟨?_, ?_⟩
      · rw [Nat.pow_add]
        exact Nat.mul_le_mul_right _ (Nat.le_add_right ..)
      · rw [show 52 + j + 1 = 53 + j by omega, Nat.pow_add]
        refine Nat.mul_lt_mul_of_pos_right ?_ (twoPow_pos j)
        have hhigh : (2 : Nat) ^ 53 = twoPow 52 * 2 := rfl
        omega
    dsimp only
    rw [if_neg hexp, Nat.add_sub_cancel, hlog, Nat.add_sub_cancel_left, Nat.one_mul,
      divNearest_mul _ (twoPow_pos j)]
    have hsum : j * twoPow 52 + (twoPow 52 + f) = x.magnitude := by omega
    rw [hsum]
    exact Nat.min_eq_left (Nat.le_of_lt hfinite)

/-- Only a zero has no units. -/
theorem units_ne_zero (hx : x.magnitude ≠ 0) : x.units ≠ 0 := by
  unfold units
  by_cases hexp : x.magnitude / twoPow 52 = 0
  · rw [if_pos hexp, Nat.mod_eq_of_lt]
    · exact hx
    · exact (Nat.div_eq_zero_iff_lt (twoPow_pos 52)).mp hexp
  · rw [if_neg hexp]
    refine Nat.mul_ne_zero ?_ (Nat.pos_iff_ne_zero.mp (twoPow_pos _))
    have := twoPow_pos 52
    omega

-- ============================================================== canonical

/-- A number without the sign of a zero; a NaN stays the one that it is. -/
def canonical (x : Double) : Double :=
  if x.isNaN then x else if x.isZero then zero else x.untagged

theorem canonical_nan (hx : x.isNaN = true) : x.canonical = x := if_pos hx

theorem canonical_zero (hx : x.magnitude = 0) : x.canonical = zero := by
  unfold canonical isNaN isZero
  rw [hx]
  rfl

theorem canonical_other (hx : x.isNaN = false) (hzero : x.magnitude ≠ 0) :
    x.canonical = x.untagged := by
  unfold canonical isZero
  rw [hx, if_neg (by decide), if_neg]
  simpa using hzero

/-- Only a NaN is told apart by its tag. -/
theorem canonical_untagged (hx : x.isNaN = false) : x.untagged.canonical = x.canonical := by
  by_cases hzero : x.magnitude = 0
  · rw [canonical_zero hzero]
    exact canonical_zero hzero
  · rw [canonical_other hx hzero]
    exact canonical_other hx hzero

@[simp] theorem canonical_isNaN (x : Double) : x.canonical.isNaN = x.isNaN := by
  by_cases hx : x.isNaN = true
  · rw [canonical_nan hx]
  · have hx' := Bool.eq_false_iff.mpr hx
    by_cases hzero : x.magnitude = 0
    · rw [canonical_zero hzero, hx']
      decide
    · rw [canonical_other hx' hzero]
      rfl

/-- Copies of one NaN stay copies of it. -/
theorem sameNaN_canonical (x y : Double) : x.canonical.sameNaN y.canonical = x.sameNaN y := by
  unfold sameNaN
  rw [canonical_isNaN, canonical_isNaN]
  by_cases hx : x.isNaN = true
  · by_cases hy : y.isNaN = true
    · rw [canonical_nan hx, canonical_nan hy]
    · simp only [Bool.eq_false_iff.mpr hy, Bool.and_false, Bool.false_and]
  · simp only [Bool.eq_false_iff.mpr hx, Bool.false_and]

theorem not_isNaN_of_isFinite (hx : x.isFinite = true) : x.isNaN = false := by
  have hfinite : x.magnitude < infinityMagnitude := of_decide_eq_true hx
  exact decide_eq_false (by omega)

/-- A zero is the integer zero. -/
theorem integral_of_zero (hx : x.magnitude = 0) : x.isIntegral = true ∧ x.truncate = 0 := by
  have hunits : x.units = 0 := by
    unfold units
    rw [hx]
    rfl
  constructor
  · unfold isIntegral isFinite
    rw [hx, hunits, Nat.zero_mod]
    rfl
  · unfold truncate
    rw [hunits, Nat.zero_div]
    cases x.negative <;> rfl

/-- The float of the integer that a float is, up to the sign of zero. -/
theorem ofInt?_truncate (hx : x.isIntegral = true) :
    ∃ y, ofInt? x.truncate = some y ∧ y.canonical = x.canonical := by
  obtain ⟨hfinite, hunits⟩ : x.isFinite = true ∧ x.units % one = 0 := by
    simpa [isIntegral] using hx
  have hexact : x.truncate.natAbs * one = x.units := by
    have habs : x.truncate.natAbs = x.units / one := by
      unfold truncate
      split <;> simp only [Int.natAbs_neg, Int.natAbs_natCast]
    rw [habs, Nat.div_mul_cancel (Nat.dvd_of_mod_eq_zero hunits)]
  have hof : ofInt x.truncate = ofMagnitude (decide (x.truncate < 0)) x.magnitude := by
    unfold ofInt ofRatio
    rw [hexact, nearestMagnitude_units hfinite]
  have hmagnitude := ofMagnitude_magnitude (decide (x.truncate < 0)) (magnitude_lt x)
  refine ⟨ofMagnitude (decide (x.truncate < 0)) x.magnitude, ?_, ?_⟩
  · unfold ofInt?
    rw [hof]
    have : (ofMagnitude (decide (x.truncate < 0)) x.magnitude).isFinite = true := by
      unfold isFinite at hfinite ⊢
      rw [hmagnitude]
      exact hfinite
    simp only [this, if_true]
  · by_cases hzero : x.magnitude = 0
    · rw [canonical_zero hzero, canonical_zero (hmagnitude.trans hzero)]
    · have hsign : decide (x.truncate < 0) = x.negative := by
        have hne := units_ne_zero hzero
        have hpos : x.truncate.natAbs ≠ 0 := by
          intro h
          rw [h, Nat.zero_mul] at hexact
          exact hne hexact.symm
        unfold truncate at hpos ⊢
        generalize x.units / one = q at hpos ⊢
        by_cases hn : x.negative = true
        · rw [if_pos hn, Int.natAbs_neg, Int.natAbs_natCast] at hpos
          rw [if_pos hn, hn]
          exact decide_eq_true (by omega)
        · rw [if_neg hn, Bool.eq_false_iff.mpr hn]
          exact decide_eq_false (by omega)
      rw [hsign, ofMagnitude_self, canonical_untagged (not_isNaN_of_isFinite hfinite)]

end Double

end StackBridge

import Mathlib.Order.Monotone.Basic
import StackBridge.Proofs.Double.Exact

/-!
Rounding an integer to a float. `Double.IsNearest` says of a float that no
other is nearer to an integer, and that of two equally near ones it is the one
with an even significand; an infinity counts as the power of two that would come
after the largest finite magnitude. `Double.ofInt` is the nearest in this sense,
and the sense leaves no choice.

Magnitudes count the non-negative values in their order, and `unitsAt` is the
value of one. It grows by a power of two with every step (`unitsAt_grid`), so
that rounding to a multiple of that power picks one of two neighbours.
-/

namespace StackBridge

/-- The two ways to round a quotient. -/
theorem divNearest_cases (n d : Nat) :
    (divNearest n d = n / d ∧ 2 * (n % d) ≤ d ∧ (2 * (n % d) = d → n / d % 2 = 0))
      ∨ (divNearest n d = n / d + 1 ∧ d ≤ 2 * (n % d)
          ∧ (2 * (n % d) = d → (n / d + 1) % 2 = 0)) := by
  unfold divNearest
  simp only [Bool.or_eq_true, decide_eq_true_eq, Bool.and_eq_true, beq_iff_eq]
  split
  · left
    omega
  · right
    omega

namespace Double

variable {x : Double}

-- ================================================================ magnitudes

/-- The value of a magnitude, in the unit of the finite values. -/
def unitsAt (m : Nat) : Nat :=
  if m / twoPow 52 = 0 then m % twoPow 52
  else (twoPow 52 + m % twoPow 52) * twoPow (m / twoPow 52 - 1)

theorem units_eq (x : Double) : x.units = unitsAt x.magnitude := rfl

/-- Between two powers of two the magnitudes count multiples of one unit. -/
theorem unitsAt_grid {s q : Nat} (hlow : s = 0 ∨ twoPow 52 ≤ q) (hhigh : q ≤ twoPow 53) :
    unitsAt (s * twoPow 52 + q) = q * twoPow s := by
  have hpos := twoPow_pos 52
  have hdouble : twoPow 53 = twoPow 52 * 2 := twoPow_succ 52
  unfold unitsAt
  generalize twoPow 52 = p at *
  rcases Nat.lt_or_ge q p with hq | hq
  · -- below the normal range
    obtain rfl : s = 0 := by omega
    rw [Nat.zero_mul, Nat.zero_add, Nat.div_eq_of_lt hq, Nat.mod_eq_of_lt hq, if_pos rfl]
    exact (Nat.mul_one q).symm
  · rcases Nat.lt_or_ge q (p * 2) with hq' | hq'
    · have hsplit : s * p + q = (q - p) + p * (s + 1) := by
        rw [Nat.mul_succ, Nat.mul_comm p s]
        omega
      rw [hsplit, Nat.add_mul_div_left _ _ hpos, Nat.add_mul_mod_self_left,
        Nat.div_eq_of_lt (by omega), Nat.mod_eq_of_lt (by omega), if_neg (by omega)]
      rw [show p + (q - p) = q by omega, show 0 + (s + 1) - 1 = s by omega]
    · -- the power of two at the upper end
      obtain rfl : q = p * 2 := by omega
      have hsplit : s * p + p * 2 = 0 + p * (s + 2) := by
        rw [Nat.mul_add, Nat.mul_comm p s]
        omega
      rw [hsplit, Nat.add_mul_div_left _ _ hpos, Nat.add_mul_mod_self_left,
        Nat.zero_div, Nat.zero_mod, if_neg (by omega), Nat.add_zero,
        show 0 + (s + 2) - 1 = s + 1 by omega, twoPow_succ, Nat.mul_assoc, Nat.mul_comm 2]

/-- Every magnitude is on such a grid, and so is the next one. -/
theorem exists_grid (m : Nat) :
    ∃ s q, m = s * twoPow 52 + q ∧ (s = 0 ∨ twoPow 52 ≤ q) ∧ q < twoPow 53 := by
  have hpos := twoPow_pos 52
  have hdouble : twoPow 53 = twoPow 52 * 2 := twoPow_succ 52
  have hsplit := Nat.div_add_mod' m (twoPow 52)
  have hrest := Nat.mod_lt m hpos
  generalize twoPow 52 = p at *
  cases he : m / p with
  | zero =>
      rw [he, Nat.zero_mul, Nat.zero_add] at hsplit
      exact ⟨0, m, by omega, .inl rfl, by omega⟩
  | succ s =>
      rw [he, Nat.succ_mul] at hsplit
      exact ⟨s, p + m % p, by omega, .inr (by omega), by omega⟩

theorem unitsAt_lt_succ (m : Nat) : unitsAt m < unitsAt (m + 1) := by
  obtain ⟨s, q, rfl, hlow, hhigh⟩ := exists_grid m
  rw [Nat.add_assoc, unitsAt_grid hlow (by omega), unitsAt_grid (by omega) hhigh]
  exact Nat.mul_lt_mul_of_pos_right (Nat.lt_succ_self q) (twoPow_pos s)

theorem unitsAt_strictMono : StrictMono unitsAt := strictMono_nat_of_lt_succ unitsAt_lt_succ

theorem unitsAt_zero : unitsAt 0 = 0 := rfl

-- ====================================================== the nearest magnitude

/-- How far a magnitude is from a number of units. -/
def gap (n m : Nat) : Nat := ((n : Int) - unitsAt m).natAbs

/-- Below a number the greater value is the nearer one. -/
theorem gap_below {n k m : Nat} (hle : unitsAt k ≤ unitsAt m) (hm : unitsAt m ≤ n) :
    gap n m ≤ gap n k := by
  unfold gap
  omega

theorem gap_injective {n k m : Nat} (hle : unitsAt k ≤ unitsAt m) (hm : unitsAt m ≤ n)
    (heq : gap n k = gap n m) : unitsAt k = unitsAt m := by
  unfold gap at heq
  omega

/-- Of two neighbours around a number the nearer one is nearer than all others;
half-way between them the even one is chosen. -/
theorem gap_le_of_neighbour {n a m : Nat} (hlow : unitsAt a ≤ n) (hhigh : n < unitsAt (a + 1))
    (hm : (m = a ∧ gap n a ≤ gap n (a + 1) ∧ (gap n a = gap n (a + 1) → a % 2 = 0))
      ∨ (m = a + 1 ∧ gap n (a + 1) ≤ gap n a ∧ (gap n a = gap n (a + 1) → (a + 1) % 2 = 0)))
    (k : Nat) : gap n m ≤ gap n k ∧ (gap n m = gap n k → k ≠ m → m % 2 = 0) := by
  have hmono := unitsAt_strictMono
  -- what is not one of the neighbours is beyond one of them
  have hk : k = a ∨ k = a + 1 ∨ unitsAt k < unitsAt a ∨ unitsAt (a + 1) < unitsAt k := by
    rcases Nat.lt_trichotomy k a with hlt | heq | hgt
    · exact .inr (.inr (.inl (hmono hlt)))
    · exact .inl heq
    · rcases Nat.lt_trichotomy k (a + 1) with hlt | heq | hgt'
      · omega
      · exact .inr (.inl heq)
      · exact .inr (.inr (.inr (hmono hgt')))
  unfold gap at *
  rcases hm with ⟨rfl, hnear, heven⟩ | ⟨rfl, hnear, heven⟩
  · rcases hk with rfl | rfl | hbelow | habove <;> omega
  · rcases hk with rfl | rfl | hbelow | habove <;> omega

/-- A number has at most 53 bits in front of the ones that are rounded away. -/
theorem significand_bounds (n : Nat) :
    (n.log2 - 52 = 0 ∨ twoPow 52 ≤ n / twoPow (n.log2 - 52))
      ∧ n / twoPow (n.log2 - 52) < twoPow 53 := by
  have hpow : ∀ k, twoPow k = 2 ^ k := fun _ => rfl
  have hupper : n < 2 ^ (n.log2 + 1) := Nat.lt_log2_self
  have hpos := twoPow_pos (n.log2 - 52)
  constructor
  · by_cases hshift : n.log2 - 52 = 0
    · exact .inl hshift
    · right
      have hne : n ≠ 0 := by
        rintro rfl
        exact hshift rfl
      have hlower : 2 ^ n.log2 ≤ n := Nat.log2_self_le hne
      refine (Nat.le_div_iff_mul_le hpos).mpr ?_
      rw [hpow, hpow, ← Nat.pow_add, show 52 + (n.log2 - 52) = n.log2 by omega]
      exact hlower
  · refine (Nat.div_lt_iff_lt_mul hpos).mpr (Nat.lt_of_lt_of_le hupper ?_)
    rw [hpow, hpow, ← Nat.pow_add]
    exact Nat.pow_le_pow_right (by decide) (by omega)

/-- The rounded magnitude is the nearest one, up to the infinite one. -/
theorem nearestMagnitude_gap (n : Nat) {k : Nat} (hk : k ≤ infinityMagnitude) :
    gap n (nearestMagnitude n 1) ≤ gap n k
      ∧ (gap n (nearestMagnitude n 1) = gap n k → k ≠ nearestMagnitude n 1 →
          nearestMagnitude n 1 % 2 = 0) := by
  obtain ⟨hlow, hhigh⟩ := significand_bounds n
  unfold nearestMagnitude
  rw [Nat.div_one]
  dsimp only
  rw [Nat.one_mul]
  generalize n.log2 - 52 = s at hlow hhigh ⊢
  have hpos := twoPow_pos s
  have hfloor := unitsAt_grid hlow (Nat.le_of_lt hhigh)
  have hnext : unitsAt (s * twoPow 52 + n / twoPow s + 1) = (n / twoPow s + 1) * twoPow s := by
    rw [Nat.add_assoc]
    exact unitsAt_grid (by omega) hhigh
  have hsplit := Nat.div_add_mod' n (twoPow s)
  have hrest := Nat.mod_lt n hpos
  have hparity : s * twoPow 52 % 2 = 0 := by
    rw [show twoPow 52 = twoPow 51 * 2 from twoPow_succ 51, ← Nat.mul_assoc, Nat.mul_mod_left]
  have hcases := divNearest_cases n (twoPow s)
  rw [Nat.succ_mul] at hnext
  generalize hq : n / twoPow s = q at *
  generalize hr : n % twoPow s = r at *
  generalize twoPow s = d at *
  generalize q * d = f at *
  rcases Nat.lt_or_ge n (unitsAt infinityMagnitude) with hfinite | hinfinite
  · have hbelow : s * twoPow 52 + q < infinityMagnitude := by
      refine unitsAt_strictMono.lt_iff_lt.mp ?_
      omega
    have hclip : min (s * twoPow 52 + divNearest n d) infinityMagnitude
        = s * twoPow 52 + divNearest n d := by
      refine Nat.min_eq_left ?_
      omega
    rw [hclip]
    refine gap_le_of_neighbour (a := s * twoPow 52 + q) (by omega) (by omega) ?_ k
    unfold gap
    rw [hfloor, hnext]
    rcases hcases with ⟨hdown, hnear, heven⟩ | ⟨hup, hnear, heven⟩
    · left
      omega
    · right
      omega
  · -- nothing is beyond the infinite magnitude
    have hbeyond : infinityMagnitude < s * twoPow 52 + q + 1 := by
      refine unitsAt_strictMono.lt_iff_lt.mp ?_
      omega
    have hclip : min (s * twoPow 52 + divNearest n d) infinityMagnitude = infinityMagnitude := by
      refine Nat.min_eq_right ?_
      omega
    have hle : unitsAt k ≤ unitsAt infinityMagnitude := unitsAt_strictMono.le_iff_le.mpr hk
    rw [hclip]
    refine ⟨gap_below hle hinfinite, ?_⟩
    intro heq hne
    exact absurd (unitsAt_strictMono.injective (gap_injective hle hinfinite heq.symm)) hne

-- ========================================================== the nearest float

/-- No float is nearer to the integer, and of two equally near ones this is the
one with an even significand. -/
structure IsNearest (n : Int) (x : Double) : Prop where
  number : x.isNaN = false
  closest : ∀ y : Double, y.isNaN = false →
    (n * one - x.signedUnits).natAbs ≤ (n * one - y.signedUnits).natAbs
  even : ∀ y : Double, y.isNaN = false → y.signedUnits ≠ x.signedUnits →
    (n * one - x.signedUnits).natAbs = (n * one - y.signedUnits).natAbs → x.magnitude % 2 = 0

theorem magnitude_le (hx : x.isNaN = false) : x.magnitude ≤ infinityMagnitude := by
  have hle : ¬ infinityMagnitude < x.magnitude := of_decide_eq_false hx
  omega

theorem signedUnits_cases (x : Double) :
    x.signedUnits = unitsAt x.magnitude ∨ x.signedUnits = -(unitsAt x.magnitude : Int) := by
  unfold signedUnits
  rw [units_eq]
  split
  · exact .inr rfl
  · exact .inl rfl

/-- The float that an integer is rounded to. -/
theorem ofInt_fields (n : Int) :
    (ofInt n).magnitude = nearestMagnitude (n.natAbs * one) 1
      ∧ (ofInt n).negative = decide (n < 0) ∧ (ofInt n).isNaN = false := by
  have hle : nearestMagnitude (n.natAbs * one) 1 ≤ infinityMagnitude := Nat.min_le_right _ _
  have hlt := Nat.lt_of_le_of_lt hle infinityMagnitude_lt
  have hmagnitude : (ofInt n).magnitude = nearestMagnitude (n.natAbs * one) 1 :=
    ofMagnitude_magnitude _ hlt
  refine ⟨hmagnitude, ofMagnitude_negative _ hlt, ?_⟩
  unfold isNaN
  rw [hmagnitude]
  exact decide_eq_false (Nat.not_lt.mpr hle)

/-- An integer is rounded to the nearest float. -/
theorem ofInt_nearest (n : Int) : IsNearest n (ofInt n) := by
  obtain ⟨hmagnitude, hsign, hnan⟩ := ofInt_fields n
  have hgap := fun k (hk : k ≤ infinityMagnitude) => nearestMagnitude_gap (n.natAbs * one) hk
  rw [← hmagnitude] at hgap
  have hzero := (hgap 0 (Nat.zero_le _)).1
  have hx : (ofInt n).signedUnits
      = if n < 0 then -(unitsAt (ofInt n).magnitude : Int) else unitsAt (ofInt n).magnitude := by
    unfold signedUnits
    rw [hsign, units_eq]
    simp only [decide_eq_true_eq]
  have hn : n * (one : Int)
      = if n < 0 then -((n.natAbs * one : Nat) : Int) else (n.natAbs * one : Nat) := by
    split
    · rw [Int.natCast_mul, Int.ofNat_natAbs_of_nonpos (by omega), Int.neg_mul, Int.neg_neg]
    · rw [Int.natCast_mul, Int.natAbs_of_nonneg (by omega)]
  generalize n.natAbs * one = units at hgap hzero hn
  have hzeroUnits := unitsAt_zero
  refine ⟨hnan, ?_, ?_⟩
  · intro y hy
    have hgap' := (hgap y.magnitude (magnitude_le hy)).1
    rw [hn, hx]
    unfold gap at hgap' hzero
    rcases signedUnits_cases y with hunits | hunits <;>
    · rw [hunits]
      split <;> omega
  · intro y hy hne heq
    have hgap' := hgap y.magnitude (magnitude_le hy)
    rw [hn, hx] at heq
    rw [hx] at hne
    unfold gap at hgap' hzero
    -- a value on the other side of zero is no nearer than zero is
    by_cases hsame : y.signedUnits = if n < 0 then -(unitsAt y.magnitude : Int) else unitsAt y.magnitude
    · refine hgap'.2 ?_ ?_
      · rw [hsame] at heq
        split at heq <;> omega
      · intro hk
        rw [hk] at hsame
        exact hne hsame
    · have hother : unitsAt y.magnitude = 0 := by
        rcases signedUnits_cases y with hunits | hunits <;>
        · rw [hunits] at heq hsame
          split at heq <;> split at hsame <;> omega
      rcases signedUnits_cases y with hunits | hunits <;>
      · rw [hother] at hunits
        rw [hunits] at hsame
        split at hsame <;> omega

-- =============================================================== in their order

/-- The value at a place in the order. -/
def signedUnitsAt (k : Int) : Int :=
  if k < 0 then -(unitsAt k.natAbs : Int) else unitsAt k.natAbs

theorem signedUnits_eq (x : Double) : x.signedUnits = signedUnitsAt x.orderKey := by
  unfold signedUnits orderKey signedUnitsAt
  rw [units_eq]
  cases x.negative with
  | true =>
      simp only [if_true, Int.natAbs_neg, Int.natAbs_natCast]
      split
      · rfl
      · rename_i hneg
        have hzero : x.magnitude = 0 := by omega
        rw [hzero]
        rfl
  | false =>
      simp only [Bool.false_eq_true, if_false, Int.natAbs_natCast]
      split
      · omega
      · rfl

/-- A later place in the order is a larger value. -/
theorem signedUnitsAt_lt {j k : Int} (hjk : j < k) : signedUnitsAt j < signedUnitsAt k := by
  have hzero := unitsAt_zero
  have hmono := unitsAt_strictMono
  unfold signedUnitsAt
  split
  · have hj := hmono (show 0 < j.natAbs by omega)
    split
    · have hk := hmono (show k.natAbs < j.natAbs by omega)
      omega
    · omega
  · have hk := hmono (show j.natAbs < k.natAbs by omega)
    split
    · omega
    · omega

theorem lt_of_signedUnitsAt {j k : Int} (h : signedUnitsAt j < signedUnitsAt k) : j < k := by
  rcases Int.lt_trichotomy j k with hlt | rfl | hgt
  · exact hlt
  · exact absurd h (Int.lt_irrefl _)
  · exact absurd h (Int.not_lt.mpr (Int.le_of_lt (signedUnitsAt_lt hgt)))

/-- Every place in the order up to the infinite ones is some float's. -/
theorem exists_orderKey {k : Int} (hk : k.natAbs ≤ infinityMagnitude) :
    ∃ x : Double, x.isNaN = false ∧ x.orderKey = k := by
  have hlt := Nat.lt_of_le_of_lt hk infinityMagnitude_lt
  refine ⟨ofMagnitude (decide (k < 0)) k.natAbs, ?_, ?_⟩
  · unfold isNaN
    rw [ofMagnitude_magnitude _ hlt]
    exact decide_eq_false (Nat.not_lt.mpr hk)
  · unfold orderKey
    rw [ofMagnitude_magnitude _ hlt, ofMagnitude_negative _ hlt]
    by_cases hneg : k < 0
    · rw [decide_eq_true hneg, if_pos rfl]
      omega
    · rw [decide_eq_false hneg, if_neg (by decide)]
      omega

theorem signedUnits_natAbs (x : Double) : x.signedUnits.natAbs = x.units := by
  unfold signedUnits
  split
  · rw [Int.natAbs_neg, Int.natAbs_natCast]
  · rw [Int.natAbs_natCast]

/-- Values are the same at the same magnitude only. -/
theorem magnitude_eq {y : Double} (h : x.signedUnits = y.signedUnits) :
    x.magnitude = y.magnitude := by
  refine unitsAt_strictMono.injective ?_
  rw [← units_eq, ← units_eq, ← signedUnits_natAbs, ← signedUnits_natAbs, h]

theorem orderKey_natAbs (x : Double) : x.orderKey.natAbs = x.magnitude := by
  unfold orderKey
  split
  · rw [Int.natAbs_neg, Int.natAbs_natCast]
  · rw [Int.natAbs_natCast]

namespace IsNearest

variable {n n' : Int} {y : Double}

/-- Nothing lies between an integer and the nearest float: what is not above the
one is not above the other. -/
theorem le (hx : IsNearest n x) (hy : y.isNaN = false) (hle : y.signedUnits ≤ n * one) :
    y.signedUnits ≤ x.signedUnits := by
  have hclosest := hx.closest y hy
  omega

theorem ge (hx : IsNearest n x) (hy : y.isNaN = false) (hle : n * one ≤ y.signedUnits) :
    x.signedUnits ≤ y.signedUnits := by
  have hclosest := hx.closest y hy
  omega

/-- A float that is the integer is the nearest. -/
theorem of_exact (hx : x.isNaN = false) (hexact : x.signedUnits = n * one) : IsNearest n x := by
  refine ⟨hx, ?_, ?_⟩
  · intro y hy
    omega
  · intro y hy hne heq
    omega

/-- Only one value is nearest: of two at the same distance, both even, one
between them would be nearer. -/
theorem unique (hx : IsNearest n x) (hy : IsNearest n y) : x.signedUnits = y.signedUnits := by
  have hne : ∀ {x y : Double}, IsNearest n x → IsNearest n y → ¬ x.signedUnits < y.signedUnits := by
    intro x y hx hy hlt
    have hnear := hx.closest y hy.number
    have hnear' := hy.closest x hx.number
    have heven := hx.even y hy.number (by omega) (by omega)
    have heven' := hy.even x hx.number (by omega) (by omega)
    have hkeys : x.orderKey < y.orderKey := by
      rw [signedUnits_eq, signedUnits_eq] at hlt
      exact lt_of_signedUnitsAt hlt
    have hmagnitude := magnitude_le hx.number
    have hmagnitude' := magnitude_le hy.number
    rw [← orderKey_natAbs] at heven heven' hmagnitude hmagnitude'
    obtain ⟨z, hz, hkey⟩ := exists_orderKey (show (x.orderKey + 1).natAbs ≤ infinityMagnitude by omega)
    have hbelow : x.signedUnits < z.signedUnits := by
      rw [signedUnits_eq, signedUnits_eq]
      refine signedUnitsAt_lt ?_
      omega
    have habove : z.signedUnits < y.signedUnits := by
      rw [signedUnits_eq, signedUnits_eq]
      refine signedUnitsAt_lt ?_
      omega
    have hclosest := hx.closest z hz
    omega
  rcases Int.lt_trichotomy x.signedUnits y.signedUnits with hlt | heq | hgt
  · exact absurd hlt (hne hx hy)
  · exact heq
  · exact absurd hgt (hne hy hx)

theorem mono (hx : IsNearest n x) (hy : IsNearest n' y) (hle : n ≤ n') :
    x.signedUnits ≤ y.signedUnits := by
  rcases Int.lt_or_eq_of_le hle with hlt | rfl
  · have hclosest := hx.closest y hy.number
    have hclosest' := hy.closest x hx.number
    have hunits : n * (one : Int) < n' * one :=
      Int.mul_lt_mul_of_pos_right hlt (by exact_mod_cast twoPow_pos 1074)
    omega
  · exact Int.le_of_eq (hx.unique hy)

end IsNearest

-- ============================================================ integral values

/-- From two to the power of 52 on there is nothing behind the point. -/
theorem one_dvd_units (hlarge : twoPow 52 * one ≤ x.units) : one ∣ x.units := by
  have hpow : ∀ k, twoPow k = 2 ^ k := fun _ => rfl
  obtain ⟨s, q, hm, hlow, hhigh⟩ := exists_grid x.magnitude
  rw [units_eq, hm, unitsAt_grid hlow (Nat.le_of_lt hhigh)] at hlarge ⊢
  have hlt : twoPow 52 * one < twoPow 53 * twoPow s :=
    Nat.lt_of_le_of_lt hlarge (Nat.mul_lt_mul_of_pos_right hhigh (twoPow_pos s))
  obtain ⟨bits, hone⟩ : ∃ bits, one = twoPow bits := ⟨1074, rfl⟩
  rw [hone] at hlt ⊢
  rw [hpow, hpow, hpow, hpow, ← Nat.pow_add, ← Nat.pow_add] at hlt
  have hexponent := (Nat.pow_lt_pow_iff_right (by decide)).mp hlt
  rw [hpow, hpow]
  exact Nat.dvd_mul_left_of_dvd (Nat.pow_dvd_pow 2 (by omega)) q

/-- What is cut off is nothing, then. -/
theorem truncate_mul_one (hunits : one ∣ x.units) : x.truncate * one = x.signedUnits := by
  have hexact : ((x.units / one : Nat) : Int) * one = x.units := by
    exact_mod_cast Nat.div_mul_cancel hunits
  unfold truncate signedUnits
  split
  · rw [Int.neg_mul, hexact]
  · exact hexact

/-- The nearest float to an integer that is large is an integer, too. -/
theorem IsNearest.integral {n : Int} {y : Double} (hx : IsNearest n x) (hy : y.isNaN = false)
    (hlarge : twoPow 52 * one ≤ y.units)
    (hbeyond : (0 ≤ y.signedUnits ∧ y.signedUnits ≤ n * one)
      ∨ (y.signedUnits ≤ 0 ∧ n * one ≤ y.signedUnits)) :
    x.truncate * one = x.signedUnits := by
  refine truncate_mul_one (one_dvd_units ?_)
  have hx' := signedUnits_natAbs x
  have hy' := signedUnits_natAbs y
  rcases hbeyond with ⟨hsign, habove⟩ | ⟨hsign, hbelow⟩
  · have hle := hx.le hy habove
    omega
  · have hle := hx.ge hy hbelow
    omega

end Double

end StackBridge

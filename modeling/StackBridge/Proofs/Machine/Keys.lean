import StackBridge.Machine.Value
import StackBridge.Proofs.Double.Exact

/-!
Which values address the same key of a table. A table makes one key of an
integer and of the floats that equal it, and tells apart everything else that is
not equal, so that two values address one key if and only if they are raw equal
(`Value.rawEqual_iff`). Comparing is exact: no integer is rounded on the way.
-/

namespace StackBridge

-- ================================================================= numbers

namespace Double

variable {x y : Double} {n : Int}

/-- A float is an integer if and only if nothing is cut off and what is left is
that integer. -/
theorem sameInt_iff : x.sameInt n = true ↔ x.isIntegral = true ∧ x.truncate = n := by
  have hone : 0 < one := twoPow_pos 1074
  unfold sameInt isIntegral signedUnits truncate
  generalize x.units = u, one = d at hone ⊢
  rw [Bool.and_eq_true, Bool.and_eq_true, beq_iff_eq, beq_iff_eq, and_assoc]
  refine and_congr_right fun _ => ?_
  have hcut : u % d = 0 → ((u / d : Nat) : Int) * d = u := fun hmod => by
    exact_mod_cast Nat.div_mul_cancel (Nat.dvd_of_mod_eq_zero hmod)
  have hwhole : ∀ m : Int, (u : Int) = m * d → u % d = 0 ∧ ((u / d : Nat) : Int) = m := by
    intro m hm
    have hd : (d : Int) ≠ 0 := by omega
    refine ⟨?_, ?_⟩
    · have hmod : (u : Int) % d = 0 := by rw [hm, Int.mul_emod_left]
      exact_mod_cast hmod
    · rw [Int.natCast_ediv, hm, Int.mul_ediv_cancel m hd]
  cases x.negative with
  | false =>
      simp only [Bool.false_eq_true, if_false]
      exact ⟨hwhole n, fun h => by rw [← h.2, hcut h.1]⟩
  | true =>
      simp only [if_true]
      constructor
      · intro h
        obtain ⟨hmod, hquotient⟩ := hwhole (-n) (by rw [Int.neg_mul, ← h, Int.neg_neg])
        exact ⟨hmod, by rw [hquotient, Int.neg_neg]⟩
      · rintro ⟨hmod, rfl⟩
        rw [Int.neg_mul, hcut hmod]

/-- The place of a number in the order is that of its canonical form. -/
theorem orderKey_canonical (hx : x.isNaN = false) : x.canonical.orderKey = x.orderKey := by
  by_cases hzero : x.magnitude = 0
  · rw [canonical_zero hzero]
    unfold orderKey
    rw [hzero]
    cases x.negative <;> rfl
  · rw [canonical_other hx hzero]
    rfl

/-- Equal numbers differ in the sign of a zero at most. -/
theorem sameNumber_iff : x.sameNumber y = true
    ↔ x.isNaN = false ∧ y.isNaN = false ∧ x.canonical = y.canonical := by
  unfold sameNumber
  rw [Bool.and_eq_true, Bool.and_eq_true, Bool.not_eq_true', Bool.not_eq_true', beq_iff_eq,
    and_assoc]
  refine and_congr_right fun hx => and_congr_right fun hy => ⟨fun horder => ?_, fun hsame => ?_⟩
  · have hmagnitude : x.magnitude = y.magnitude := by
      unfold orderKey at horder
      split at horder <;> split at horder <;> omega
    by_cases hzero : x.magnitude = 0
    · rw [canonical_zero hzero, canonical_zero (hmagnitude ▸ hzero)]
    · have hsign : x.negative = y.negative := by
        unfold orderKey at horder
        cases hnx : x.negative <;> cases hny : y.negative <;> rw [hnx, hny] at horder
        all_goals
          simp only [Bool.false_eq_true, if_false, if_true] at horder
          omega
      rw [canonical_other hx hzero, canonical_other hy (hmagnitude ▸ hzero), ← ofMagnitude_self,
        ← ofMagnitude_self, hsign, hmagnitude]
  · rw [← orderKey_canonical hx, ← orderKey_canonical hy, hsame]

end Double

-- ============================================================== float keys

theorem Key.ofFloat_integral {x : Double} (hx : x.isIntegral = true) :
    Key.ofFloat x = .ok (.int x.truncate) := by
  have hfinite : x.isFinite = true := by
    unfold Double.isIntegral at hx
    exact (Bool.and_eq_true_iff.mp hx).1
  unfold Key.ofFloat
  rw [Double.not_isNaN_of_isFinite hfinite, if_neg (by decide), if_pos hx]

/-- The signs of zeros do not make different keys. -/
theorem Key.ofFloat_canonical (x : Double) : Key.ofFloat x.canonical = Key.ofFloat x := by
  by_cases hx : x.isNaN = true
  · rw [Double.canonical_nan hx]
  · have hx' := Bool.eq_false_iff.mpr hx
    by_cases hzero : x.magnitude = 0
    · have hkey : ∀ z : Double, z.magnitude = 0 → Key.ofFloat z = .ok (.int 0) := by
        intro z hz
        obtain ⟨hwhole, htruncate⟩ := Double.integral_of_zero hz
        rw [Key.ofFloat_integral hwhole, htruncate]
      rw [Double.canonical_zero hzero, hkey x hzero, hkey Double.zero (by decide)]
    · rw [Double.canonical_other hx' hzero]
      rfl

/-- Floats with one key differ in the sign of a zero at most. -/
theorem Key.canonical_of_ofFloat {x y : Double} {key : Key} (hx : Key.ofFloat x = .ok key)
    (hy : Key.ofFloat y = .ok key) : x.canonical = y.canonical := by
  have hnumber : ∀ {z : Double}, Key.ofFloat z = .ok key → z.isNaN = false := by
    intro z hz
    refine Bool.eq_false_iff.mpr fun hnan => ?_
    unfold Key.ofFloat at hz
    rw [if_pos hnan] at hz
    cases hz
  have hfraction : ∀ {z : Double}, Key.ofFloat z = .ok key → z.isIntegral ≠ true →
      key = .float z.untagged := by
    intro z hz hwhole
    have hnan := hnumber hz
    unfold Key.ofFloat at hz
    rw [hnan, if_neg (by decide), if_neg hwhole] at hz
    exact (Except.ok.inj hz).symm
  by_cases hwhole : x.isIntegral = true <;> by_cases hwhole' : y.isIntegral = true
  · have htruncate : x.truncate = y.truncate := by
      rw [Key.ofFloat_integral hwhole, ← hy, Key.ofFloat_integral hwhole'] at hx
      exact Key.int.inj (Except.ok.inj hx)
    obtain ⟨z, hz, hzx⟩ := Double.ofInt?_truncate hwhole
    obtain ⟨z', hz', hzy⟩ := Double.ofInt?_truncate hwhole'
    rw [htruncate, hz'] at hz
    rw [← hzx, ← hzy, Option.some.inj hz]
  · rw [Key.ofFloat_integral hwhole, hfraction hy hwhole'] at hx
    cases hx
  · rw [Key.ofFloat_integral hwhole', hfraction hx hwhole] at hy
    cases hy
  · have huntagged : x.untagged = y.untagged :=
      Key.float.inj ((hfraction hx hwhole).symm.trans (hfraction hy hwhole'))
    rw [← Double.canonical_untagged (hnumber hx), huntagged, Double.canonical_untagged (hnumber hy)]

/-- The key of a float is the integer that it is, or the float itself. -/
theorem Key.ofFloat_cases {x : Double} {key : Key} (h : Key.ofFloat x = .ok key) :
    x.isNaN = false ∧ (x.isIntegral = true ∧ key = .int x.truncate
      ∨ x.isIntegral = false ∧ key = .float x.untagged) := by
  unfold Key.ofFloat at h
  split at h
  · cases h
  · rename_i hnan
    refine ⟨Bool.eq_false_iff.mpr hnan, ?_⟩
    split at h
    · rename_i hwhole
      cases h
      exact Or.inl ⟨hwhole, rfl⟩
    · rename_i hwhole
      cases h
      exact Or.inr ⟨Bool.eq_false_iff.mpr hwhole, rfl⟩

theorem Key.ofFloat_ok {x : Double} (hx : x.isNaN = false) : ∃ key, Key.ofFloat x = .ok key := by
  unfold Key.ofFloat
  rw [hx, if_neg (by decide)]
  split <;> exact ⟨_, rfl⟩

/-- An integer is the key of the floats that equal it. -/
theorem Key.ofFloat_int {x : Double} {n : Int} :
    Key.ofFloat x = .ok (.int n) ↔ x.sameInt n = true := by
  rw [Double.sameInt_iff]
  constructor
  · intro h
    rcases (Key.ofFloat_cases h).2 with ⟨hwhole, hkey⟩ | ⟨_, hkey⟩
    · cases hkey
      exact ⟨hwhole, rfl⟩
    · cases hkey
  · rintro ⟨hwhole, rfl⟩
    exact Key.ofFloat_integral hwhole

/-- Floats that have keys have one key if and only if they are equal. -/
theorem Key.ofFloat_eq {x y : Double} {key : Key} (h : Key.ofFloat x = .ok key) :
    Key.ofFloat y = .ok key ↔ x.sameNumber y = true := by
  rw [Double.sameNumber_iff]
  constructor
  · exact fun h' => ⟨(Key.ofFloat_cases h).1, (Key.ofFloat_cases h').1,
      Key.canonical_of_ofFloat h h'⟩
  · rintro ⟨_, _, hsame⟩
    rw [← Key.ofFloat_canonical, ← hsame, Key.ofFloat_canonical, h]

theorem Key.ofFloat_ne {x : Double} {key : Key} (h : Key.ofFloat x = .ok key) :
    (∃ n, key = .int n) ∨ ∃ y, key = .float y := by
  rcases (Key.ofFloat_cases h).2 with ⟨_, hkey⟩ | ⟨_, hkey⟩
  · exact Or.inl ⟨_, hkey⟩
  · exact Or.inr ⟨_, hkey⟩

-- ================================================================== values

namespace Value

variable {v w : Value} {key : Key}

/-- A guest addresses what it acts as. -/
theorem key_plain (v : Value) : v.plain.key = v.key := by
  cases v with
  | guest id role => cases role <;> rfl
  | _ => rfl

/-- Values that are no guests address one key if and only if they are equal. -/
theorem rawEqualPlain_iff (hv : v.key = .ok key) (hplain : v.plain = v) (hplain' : w.plain = w) :
    rawEqualPlain v w = true ↔ w.key = .ok key := by
  -- strays address nothing, and equal nothing
  have hguest : ∀ u id role, (Value.guest id role).plain = .guest id role →
      (rawEqualPlain u (.guest id role) = true ↔ (Value.guest id role).key = .ok key) := by
    intro u id role hrole
    cases role with
    | stray name => exact ⟨fun h => (by cases u <;> cases h), fun h => (by cases h)⟩
    | _ => cases hrole
  cases v with
  | nil => cases hv
  | guest id role =>
      cases role with
      | stray name => cases hv
      | _ => cases hplain
  | int n =>
      cases hv
      cases w with
      | float y => exact Key.ofFloat_int.symm
      | guest id role => exact hguest _ id role hplain'
      | _ => simp [rawEqualPlain, Value.key] <;> exact eq_comm
  | float x =>
      cases w with
      | float y => exact (Key.ofFloat_eq hv).symm
      | guest id role => exact hguest _ id role hplain'
      | int n =>
          refine Key.ofFloat_int.symm.trans ⟨fun h => h.symm.trans hv, fun h => ?_⟩
          exact Eq.trans hv h.symm
      | nil => exact ⟨fun h => (by cases h), fun h => (by cases h)⟩
      | _ =>
          refine ⟨fun h => (by cases h), fun h => ?_⟩
          rcases Key.ofFloat_ne hv with ⟨n, rfl⟩ | ⟨y, rfl⟩ <;> cases h
  | _ =>
      cases hv
      cases w with
      | float y =>
          refine ⟨fun h => (by cases h), fun h => ?_⟩
          rcases Key.ofFloat_ne h with ⟨n, hn⟩ | ⟨z, hz⟩
          · cases hn
          · cases hz
      | guest id role => exact hguest _ id role hplain'
      | _ => simp [rawEqualPlain, Value.key] <;> exact eq_comm

theorem plain_plain (v : Value) : v.plain.plain = v.plain := by
  cases v with
  | guest id role => cases role <;> rfl
  | _ => rfl

/-- A value and what addresses a key address the same one if and only if they are
raw equal. -/
theorem rawEqual_iff (hv : v.key = .ok key) : v.rawEqual w = true ↔ w.key = .ok key := by
  unfold rawEqual
  rw [← key_plain] at hv
  rw [← key_plain w]
  exact rawEqualPlain_iff hv v.plain_plain w.plain_plain

/-- What addresses nothing is raw equal to nothing but nil. -/
theorem rawEqual_keyless {f : KeyFault} (hv : v.key = .error f) (hw : w ≠ .nil) :
    v.rawEqual w = false := by
  have hplain : w.plain ≠ .nil := by
    intro h
    cases w with
    | nil => exact hw rfl
    | guest id role => cases role <;> cases h
    | _ => cases h
  unfold rawEqual
  rw [← key_plain] at hv
  generalize v.plain = v, w.plain = w at hv hplain
  have hnan : ∀ x : Double, Key.ofFloat x = .error f → x.isNaN = true := by
    intro x hx
    by_cases hnot : x.isNaN = true
    · exact hnot
    · obtain ⟨key, hkey⟩ := Key.ofFloat_ok (Bool.eq_false_iff.mpr hnot)
      cases hkey.symm.trans hx
  cases v with
  | nil =>
      cases w with
      | nil => exact absurd rfl hplain
      | _ => rfl
  | float x =>
      have hx := hnan x hv
      cases w with
      | int n =>
          show x.sameInt n = false
          have hfinite : x.isFinite = false :=
            Bool.eq_false_iff.mpr fun h => by simp [Double.not_isNaN_of_isFinite h] at hx
          rw [Double.sameInt, hfinite, Bool.false_and]
      | float y =>
          show x.sameNumber y = false
          rw [Double.sameNumber, hx, Bool.not_true, Bool.false_and, Bool.false_and]
      | _ => rfl
  | guest id role => cases w <;> rfl
  | _ => cases hv

end Value

end StackBridge

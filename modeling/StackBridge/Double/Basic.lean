import StackBridge.Power

/-!
Binary64 numbers as bit patterns, with exact arithmetic in the naturals.

Every finite binary64 value is an integer multiple of the smallest
subnormal, 2^-1074. `Double.units` is a value's magnitude in that unit, so
comparing, truncating and converting are integer problems and no rounding
happens except in `nearestMagnitude`, the one place where a rational becomes
a bit pattern.

The magnitude field (the pattern without its sign) orders the non-NaN
values; `Double.orderKey` reads it as a signed integer.
-/

namespace StackBridge

-- ==================================================== rounding a quotient

/-- The integer nearest to `n / d`; of two equally near ones, the even one. -/
def divNearest (n d : Nat) : Nat :=
  let q := n / d
  let r := n % d
  if 2 * r < d || (2 * r == d && q % 2 == 0) then q else q + 1

theorem div_le_divNearest (n d : Nat) : n / d ≤ divNearest n d := by
  unfold divNearest; simp only; split <;> omega

theorem divNearest_le_div_succ (n d : Nat) : divNearest n d ≤ n / d + 1 := by
  unfold divNearest; simp only; split <;> omega

-- ========================================================== bit patterns

/-- A binary64 number, by its bits. Copies of a NaN can be told from other
NaNs by their tag; zero is the tag of those that have not been told apart,
and of all other numbers. -/
structure Double where
  bits : UInt64
  tag : Nat
deriving DecidableEq, Inhabited, Repr

namespace Double

def ofBits (bits : UInt64) : Double := ⟨bits, 0⟩

/-- The number as if it had just come up. -/
def untagged (x : Double) : Double := ofBits x.bits

/-- The magnitude field of infinity; larger ones are NaNs. -/
def infinityMagnitude : Nat := 2047 * twoPow 52

/-- One, counted in the unit of the finite values. -/
def one : Nat := twoPow 1074

def ofMagnitude (negative : Bool) (magnitude : Nat) : Double :=
  ofBits (UInt64.ofNat (if negative then twoPow 63 + magnitude else magnitude))

def magnitude (x : Double) : Nat := x.bits.toNat % twoPow 63

def negative (x : Double) : Bool := decide (twoPow 63 ≤ x.bits.toNat)

def isNaN (x : Double) : Bool := decide (infinityMagnitude < x.magnitude)

def isInfinite (x : Double) : Bool := x.magnitude == infinityMagnitude

def isFinite (x : Double) : Bool := decide (x.magnitude < infinityMagnitude)

def infinity (negative : Bool) : Double := ofMagnitude negative infinityMagnitude

/-- The quiet NaN without a payload. -/
def nan (negative : Bool) : Double := ofMagnitude negative (infinityMagnitude + twoPow 51)

def zero : Double := ofBits 0

def isZero (x : Double) : Bool := x.magnitude == 0

def abs (x : Double) : Double := ofMagnitude false x.magnitude

/-- The magnitude of a finite value, in units of 2^-1074. -/
def units (x : Double) : Nat :=
  let exponent := x.magnitude / twoPow 52
  let fraction := x.magnitude % twoPow 52
  if exponent = 0 then fraction else (twoPow 52 + fraction) * twoPow (exponent - 1)

/-- A finite value, in units of 2^-1074. -/
def signedUnits (x : Double) : Int :=
  if x.negative then -(x.units : Int) else x.units

-- ============================================================ rounding in

/-- The magnitude field of the value nearest to `n / d` units, ties to
even. The significand is rounded to 53 bits (fewer below the normal range);
a carry out of it runs into the exponent field, as it should, and whatever
passes the largest finite value is infinity. -/
def nearestMagnitude (n d : Nat) : Nat :=
  let shift := (n / d).log2 - 52
  min (shift * twoPow 52 + divNearest n (d * twoPow shift)) infinityMagnitude

/-- The value nearest to `n / d`, ties to even. -/
def ofRatio (n : Int) (d : Nat) : Double :=
  ofMagnitude (decide (n < 0)) (nearestMagnitude (n.natAbs * one) d)

/-- The value nearest to an integer, infinity when none is finite. -/
def ofInt (n : Int) : Double := ofRatio n 1

/-- The finite value nearest to an integer. -/
def ofInt? (n : Int) : Option Double :=
  let x := ofInt n
  if x.isFinite then some x else none

-- =========================================================== rounding out

/-- A finite value truncated toward zero. -/
def truncate (x : Double) : Int :=
  if x.negative then -((x.units / one : Nat) : Int) else (x.units / one : Nat)

/-- A finite value without a fractional part. -/
def isIntegral (x : Double) : Bool := x.isFinite && x.units % one == 0

/-- A finite value as a fraction in lowest terms. -/
def toFraction (x : Double) : Int × Nat :=
  let g := Nat.gcd x.units one
  let n := x.units / g
  (if x.negative then -(n : Int) else n, one / g)

-- ============================================================== comparing

/-- The order of the non-NaN values; the two zeros coincide. -/
def orderKey (x : Double) : Int :=
  if x.negative then -(x.magnitude : Int) else x.magnitude

/-- Numeric equality: a NaN differs from everything, the zeros are equal. -/
def sameNumber (x y : Double) : Bool :=
  !x.isNaN && !y.isNaN && x.orderKey == y.orderKey

/-- Whether two numbers are copies of one NaN. -/
def sameNaN (x y : Double) : Bool := x.isNaN && y.isNaN && x.tag == y.tag && x.tag != 0

/-- Equality with an integer, exact at every magnitude. -/
def sameInt (x : Double) (n : Int) : Bool :=
  x.isFinite && x.signedUnits == n * (one : Int)

end Double

end StackBridge

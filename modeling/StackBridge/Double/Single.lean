import StackBridge.Double.Basic

/-!
Rounding to single precision. A single is kept as the binary64 number with
the same value; `Double.singleBits` is its own 32-bit pattern.
-/

namespace StackBridge

namespace Double

/-- The smallest subnormal single, 2^-149, in units of 2^-1074. -/
def singleUnit : Nat := 925

/-- The magnitude field of a single's infinity. -/
def singleInfinity : Nat := 255 * twoPow 23

/-- The 31-bit magnitude field of the single nearest to `n / d`, counted in
the smallest subnormal one, ties to even. -/
def nearestSingle (n d : Nat) : Nat :=
  let shift := (n / d).log2 - 23
  min (shift * twoPow 23 + divNearest n (d * twoPow shift)) singleInfinity

/-- The 31-bit magnitude field of the single nearest to a finite value. -/
def singleMagnitude (x : Double) : Nat := nearestSingle x.units (twoPow singleUnit)

/-- The 32-bit pattern of the nearest single. A NaN keeps its sign and the
top of its payload, and becomes quiet. -/
def singleBits (x : Double) : Nat :=
  let sign := if x.negative then twoPow 31 else 0
  if x.isNaN then sign + singleInfinity + (x.magnitude % twoPow 52 / twoPow 29 ||| twoPow 22)
  else if x.isInfinite then sign + singleInfinity
  else sign + x.singleMagnitude

/-- The binary64 number with the value of a single's 31-bit magnitude. -/
def ofSingleMagnitude (negative : Bool) (m : Nat) : Double :=
  if m = singleInfinity then infinity negative
  else
    let exponent := m / twoPow 23
    let fraction := m % twoPow 23
    let units :=
      if exponent = 0 then fraction * twoPow singleUnit
      else (twoPow 23 + fraction) * twoPow (exponent - 1 + singleUnit)
    ofMagnitude negative (nearestMagnitude units 1)

/-- The nearest single, as a binary64 number. -/
def toSingle (x : Double) : Double :=
  if x.isFinite then ofSingleMagnitude x.negative x.singleMagnitude else x.untagged

end Double

end StackBridge

import StackBridge.Double.Single

/-!
Decimal numbers and binary64 values: reading a decimal, the shortest decimal
that reads back, and rounding to a fixed count of significant digits.

A `Decimal` is a positive number `digits * 10^exponent`. `Double.shortest`
looks at the two neighbours of the value on the grid of 1, 2, ... 17 digits
and takes the first count for which one of them reads back; a decimal that
reads back on some grid implies that a neighbour on that grid does, because
the decimals that read back fill an interval around the value. A single is
written with the digits that read back as that single, which are fewer.
-/

namespace StackBridge

/-- How many decimal digits a number has; none for zero. -/
def digitCount (n : Nat) : Nat :=
  if n = 0 then 0 else digitCount (n / 10) + 1
termination_by n
decreasing_by omega

/-- The decimal digits of a number, most significant first. -/
def digitsOf (n : Nat) : List Char := Nat.toDigits 10 n

/-- `digits * 10 ^ exponent`. -/
structure Decimal where
  digits : Nat
  exponent : Int
deriving DecidableEq, Repr

namespace Decimal

/-- The same number with the trailing zeros moved into the exponent. -/
def normalize (d : Decimal) : Decimal :=
  if d.digits = 0 then d
  else if d.digits % 10 = 0 then normalize ⟨d.digits / 10, d.exponent + 1⟩
  else d
termination_by d.digits
decreasing_by omega

/-- The exponent of the leading digit. -/
def leading (d : Decimal) : Int := d.exponent + digitCount d.digits - 1

/-- The magnitude nearest to a decimal, by a way to round quotients counted
in a unit of which one has `one`. Outside the range in which a finite nonzero
value can result the answer is known without computing the power of ten. -/
def nearestBy (round : Nat → Nat → Nat) (one infinity : Nat) (d : Decimal) : Nat :=
  if d.digits = 0 then 0
  else if d.leading > 310 then infinity
  else if d.leading < -330 then 0
  else if 0 ≤ d.exponent then round (d.digits * Nat.pow 10 d.exponent.toNat * one) 1
  else round (d.digits * one) (Nat.pow 10 (-d.exponent).toNat)

/-- The magnitude field nearest to a decimal. -/
def nearestMagnitude (d : Decimal) : Nat :=
  d.nearestBy Double.nearestMagnitude Double.one Double.infinityMagnitude

/-- The magnitude field of the single nearest to a decimal. -/
def nearestSingle (d : Decimal) : Nat :=
  d.nearestBy Double.nearestSingle (twoPow 149) Double.singleInfinity

end Decimal

namespace Double

/-- The value nearest to a signed decimal. -/
def ofDecimal (negative : Bool) (d : Decimal) : Double :=
  ofMagnitude negative d.nearestMagnitude

/-- The exponent of the leading decimal digit of `n / d`, for `0 < n`. -/
def decimalExponent (n d : Nat) : Int :=
  if d ≤ n then (digitCount (n / d) : Int) - 1 else -(digitCount ((d - 1) / n) : Int)

/-- The value divided by `10 ^ exponent`, as a quotient of naturals. -/
def scaled (x : Double) (exponent : Int) : Nat × Nat :=
  if 0 ≤ exponent then (x.units, one * Nat.pow 10 exponent.toNat)
  else (x.units * Nat.pow 10 (-exponent).toNat, one)

/-- Of the two neighbours of a value on the grid of `10 ^ exponent`, the one
that reads back; when both do, the nearer, and in a tie the even one. -/
def neighbourReadingBack? (readsBack : Decimal → Bool) (x : Double) (exponent : Int) :
    Option Decimal :=
  let (n, d) := x.scaled exponent
  let below : Decimal := ⟨n / d, exponent⟩
  let above : Decimal := ⟨n / d + 1, exponent⟩
  let nearest : Decimal := ⟨divNearest n d, exponent⟩
  if readsBack nearest then some nearest
  else if readsBack below then some below
  else if readsBack above then some above
  else none

/-- The first grid, from `count` digits on, that has a decimal reading back;
seventeen digits always do. -/
def shortestFrom (readsBack : Decimal → Bool) (x : Double) (leading : Int) (count : Nat) :
    Nat → Decimal
  | 0 => let (n, d) := x.scaled (leading - 16); ⟨divNearest n d, leading - 16⟩
  | remaining + 1 =>
    match x.neighbourReadingBack? readsBack (leading - (count : Int) + 1) with
    | some d => d
    | none => shortestFrom readsBack x leading (count + 1) remaining

/-- The shortest decimal that reads back as a finite nonzero value, and of
those the nearest to it. -/
def shortest (x : Double) : Decimal :=
  (shortestFrom (fun d => d.nearestMagnitude == x.magnitude) x
    (decimalExponent x.units one) 1 16).normalize

/-- The shortest decimal that reads back as a single. -/
def shortestSingle (x : Double) : Decimal :=
  (shortestFrom (fun d => d.nearestSingle == x.singleMagnitude) x
    (decimalExponent x.units one) 1 16).normalize

/-- A finite nonzero value rounded to `count` significant digits, ties to
even on the exact value. -/
def significant (count : Nat) (x : Double) : Decimal :=
  let exponent := decimalExponent x.units one - (count : Int) + 1
  let (n, d) := x.scaled exponent
  Decimal.normalize ⟨divNearest n d, exponent⟩

end Double

end StackBridge

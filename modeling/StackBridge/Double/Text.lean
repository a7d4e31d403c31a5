import StackBridge.Double.Decimal

/-!
The written form of binary64 numbers. `FloatStyle` holds the decisions of a
format; `Double.render` applies one to a value. `FloatStyle.shortest` writes
the fewest digits that read back, `FloatStyle.single` does so for singles,
and `FloatStyle.general` writes fourteen significant digits.
-/

namespace StackBridge

/-- How a format lays out a decimal. -/
structure FloatStyle where
  /-- The decimal that stands for a finite nonzero value. -/
  decimal : Double → Decimal
  /-- Leading exponents from -4 up to this bound are written positionally. -/
  positionalBelow : Int
  /-- Whether a positional number without a fraction ends in `.0`. -/
  pointZero : Bool

/-- The fewest digits that read back; positional below 10^16. -/
def FloatStyle.shortest : FloatStyle := ⟨Double.shortest, 16, true⟩

/-- The fewest digits that read back as a single; positional below 10^16. -/
def FloatStyle.single : FloatStyle := ⟨Double.shortestSingle, 16, true⟩

/-- Fourteen significant digits; positional below 10^14. -/
def FloatStyle.general : FloatStyle := ⟨Double.significant 14, 14, false⟩

namespace Decimal

/-- A decimal written with the point at its place. -/
def positional (d : Decimal) (pointZero : Bool) : List Char :=
  let ds := digitsOf d.digits
  if 0 ≤ d.exponent then
    ds ++ List.replicate d.exponent.toNat '0' ++ (if pointZero then ['.', '0'] else [])
  else
    let places := (-d.exponent).toNat
    if places < ds.length then
      ds.take (ds.length - places) ++ '.' :: ds.drop (ds.length - places)
    else
      '0' :: '.' :: (List.replicate (places - ds.length) '0' ++ ds)

/-- A decimal written as one digit, a fraction and an exponent of at least
two digits. -/
def scientific (d : Decimal) : List Char :=
  let mantissa :=
    match digitsOf d.digits with
    | [] => []
    | [c] => [c]
    | c :: cs => c :: '.' :: cs
  let e := digitsOf d.leading.natAbs
  let padded := if e.length < 2 then '0' :: e else e
  mantissa ++ 'e' :: (if d.leading < 0 then '-' else '+') :: padded

def layout (style : FloatStyle) (d : Decimal) : List Char :=
  if -4 ≤ d.leading ∧ d.leading < style.positionalBelow then d.positional style.pointZero
  else d.scientific

end Decimal

namespace Double

/-- The digits of a value without its sign. -/
def renderMagnitude (style : FloatStyle) (x : Double) : List Char :=
  if x.isNaN then ['n', 'a', 'n']
  else if x.isInfinite then ['i', 'n', 'f']
  else if x.isZero then (if style.pointZero then ['0', '.', '0'] else ['0'])
  else (style.decimal x).layout style

/-- A value in a format; a NaN is written without a sign. -/
def render (style : FloatStyle) (x : Double) : List Char :=
  if x.negative && !x.isNaN then '-' :: x.renderMagnitude style else x.renderMagnitude style

/-- The shortest text that reads back as the value. -/
def text (x : Double) : String := String.ofList (x.render .shortest)

/-- The shortest text that reads back as a single. -/
def singleText (x : Double) : String := String.ofList (x.render .single)

end Double

end StackBridge

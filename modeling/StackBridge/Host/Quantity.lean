import StackBridge.Host.Convert

/-!
The values of numbers, whatever their class. Comparing them is exact unless a
sized number is involved: it imposes its precision on the number that it is
compared with.
-/

namespace StackBridge

inductive Quantity where
  | ratio (n : Int) (d : Nat)
  | infinite (negative : Bool)
  | nan
deriving DecidableEq, Repr

/-- How exactly two numbers are compared. -/
inductive Precision where
  | exact
  | double
  | single
deriving DecidableEq, Repr

namespace Quantity

def ofFloat (x : Double) : Quantity :=
  if x.isNaN then .nan
  else if x.isInfinite then .infinite x.negative
  else .ratio x.signedUnits Double.one

/-- Equality by value; nothing equals a NaN. -/
def same : Quantity → Quantity → Bool
  | .ratio n d, .ratio m e => n * e == m * d
  | .infinite a, .infinite b => a == b
  | _, _ => false

/-- The order of numbers; a NaN is not comparable. -/
def less : Quantity → Quantity → Bool
  | .ratio n d, .ratio m e => decide (n * e < m * d)
  | .infinite true, .ratio _ _ => true
  | .ratio _ _, .infinite false => true
  | .infinite true, .infinite false => true
  | _, _ => false

/-- A number rounded to a precision. -/
def rounded : Precision → Quantity → Quantity
  | .double, .ratio n d => ofFloat (Double.ofRatio n d)
  | .single, .ratio n d => ofFloat (Double.ofRatio n d).toSingle
  | _, q => q

end Quantity

namespace HostValue

/-- A number's value. -/
def quantity? : HostValue → Option Quantity
  | .boolean _ b => some (.ratio (if b then 1 else 0) 1)
  | .integer _ n => some (.ratio n 1)
  | .float _ x => some (.ofFloat x)
  | .fraction n d => some (.ratio n d)
  | .sealed _ .decimal => some (.ratio 1 1)
  | _ => Option.none

/-- Whether a value is a number of a sized class. -/
def isSized : HostValue → Bool
  | .boolean sized _ => sized
  | .integer (.sized _) _ | .float .single _ | .float .double _ => true
  | _ => false

/-- The precision that a single imposes on another number: plain numbers are
rounded to singles, and integers that singles cannot hold make it a double. -/
def precisionWithSingle : HostValue → Precision
  | .integer (.sized w) _ => if w.bits ≤ 16 then .exact else .double
  | .integer _ _ | .float .plain _ | .float .custom _ => .single
  | _ => .exact

/-- The precision at which two numbers are compared. -/
def precision : HostValue → HostValue → Precision
  | .float .single _, w => w.precisionWithSingle
  | v, .float .single _ => v.precisionWithSingle
  | .float .double _, .integer _ _ | .integer _ _, .float .double _ => .double
  | .integer (.sized _) _, .float _ _ | .float _ _, .integer (.sized _) _ => .double
  | _, _ => .exact

/-- Equality of numbers at a precision; other values are not equal as
numbers. -/
def sameNumber? (p : Precision) (v w : HostValue) : Option Bool :=
  match v.quantity?, w.quantity? with
  | some q, some r => some ((q.rounded p).same (r.rounded p))
  | _, _ => Option.none

end HostValue

end StackBridge

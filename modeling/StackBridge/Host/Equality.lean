import StackBridge.Host.Quantity

/-!
Equality of host values that are not wrappers and hold none, as far as it
needs nothing but the values. Inside a tuple, and among the keys of a
dictionary, a NaN counts as equal to itself; `isSame` says which values are
one and the same although they are not equal.

`unhashable?` tells the values that can be no keys.
-/

namespace StackBridge

namespace HostValue

-- ============================================================== identity

/-- Whether two values are one and the same where equality does not tell:
copies of one NaN, and a wrapper itself. -/
def isSame : HostValue → HostValue → Bool
  | .float k x, .float l y => k = l && x.sameNaN y
  | .wrapper a _, .wrapper b _ => a == b
  | _, _ => false

/-- Equality of values without parts, of numbers at a precision. What has
neither a number's value nor a content equals itself alone. -/
def sameAtom (p : Precision) (v w : HostValue) : Bool :=
  match v.sameNumber? p w with
  | some b => b
  | Option.none =>
    match v, w with
    | .none, .none => true
    | .nil, .nil => true
    | .text _ s, .text _ t => s == t
    | .bytes _ b, .bytes _ c => b == c
    | .range a b, .range c d => (a == c && b == d) || (decide (b ≤ a) && decide (d ≤ c))
    | .function a _ _, .function b _ _ => a == b
    | .builtin b, .builtin c => b == c
    | .type a, .type b => decide (a = b)
    | .bound a _ _, .bound b _ _ => a == b
    | .sealed a s, .sealed b t =>
      match s with
      | .complex | .set => decide (s = t)
      | _ => a == b
    | _, _ => false

/-- The items of a tuple of any class. -/
def tupleItems? : HostValue → Option (List HostValue)
  | .sequence .tuple items | .sequence .customTuple items => some items
  | .record _ true fields => some (fields.map (·.2))
  | _ => Option.none

-- ================================================================== keys

mutual

/-- The class that keeps a value from being a key, by fault name. -/
def unhashable? : HostValue → Option String
  | v@(.sequence k items) =>
    match k with
    | .tuple | .customTuple => unhashableIn? items
    | _ => some v.faultName
  | v@(.mapping _ _) => some v.faultName
  | v@(.bytes .array _) => some v.faultName
  | .record name tuple fields => if tuple then unhashableInFields? fields else some name
  | v@(.wrapper _ _) => some v.faultName
  | v@(.sealed _ .set) | v@(.sealed _ .array) => some v.faultName
  | _ => Option.none

def unhashableIn? : List HostValue → Option String
  | [] => Option.none
  | v :: vs =>
    match unhashable? v with
    | some t => some t
    | Option.none => unhashableIn? vs

def unhashableInFields? : List (String × HostValue) → Option String
  | [] => Option.none
  | (_, v) :: fs =>
    match unhashable? v with
    | some t => some t
    | Option.none => unhashableInFields? fs

end

mutual

/-- Whether two values are one key: tuples item by item, numbers by their
exact value, everything else as atoms. -/
def sameKey : HostValue → HostValue → Bool
  | .sequence .tuple items, w
  | .sequence .customTuple items, w =>
    match w.tupleItems? with
    | some ys => sameKeys items ys
    | Option.none => false
  | .record _ true fields, w =>
    match w.tupleItems? with
    | some ys => sameFieldKeys fields ys
    | Option.none => false
  | v, w => v.isSame w || sameAtom .exact v w

def sameKeys : List HostValue → List HostValue → Bool
  | [], [] => true
  | v :: vs, w :: ws => sameKey v w && sameKeys vs ws
  | _, _ => false

def sameFieldKeys : List (String × HostValue) → List HostValue → Bool
  | [], [] => true
  | (_, v) :: fs, w :: ws => sameKey v w && sameFieldKeys fs ws
  | _, _ => false

end

end HostValue

end StackBridge

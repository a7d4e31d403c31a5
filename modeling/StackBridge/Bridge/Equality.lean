import StackBridge.Bridge.Wrapper
import StackBridge.Host.Dict
import StackBridge.Host.Definition

/-!
Equality of host values of any class. Sequences are compared item by item
within their family, dictionaries entry by entry whatever their order, records
of one class field by field, and wrappers by the machine values that they hold
on to. Inside a container a value is always equal to itself.

Where a sized number takes part the answer is a sized truth value, or an array
of them if the other operand has items.
-/

namespace StackBridge

namespace HostValue

/-- The items of two sequences of one family: lists, tuples or queues. -/
def comparableItems? (v w : HostValue) : Option (List HostValue × List HostValue) :=
  let listItems? : HostValue → Option (List HostValue)
    | .sequence .list vs | .sequence .customList vs | .sequence .callableList vs => some vs
    | _ => Option.none
  match v, w with
  | .sequence .deque vs, .sequence .deque ws => some (vs, ws)
  | v, w =>
    match listItems? v, listItems? w, v.tupleItems?, w.tupleItems? with
    | some vs, some ws, _, _ => some (vs, ws)
    | _, _, some vs, some ws => some (vs, ws)
    | _, _, _, _ => Option.none

end HostValue

namespace Bridge

open Session

-- =============================================================== equality

section

variable (same : HostValue → HostValue → Action Bool)

/-- Whether two values in containers are equal or the same. -/
def sameInside (v w : HostValue) : Action Bool := do
  if v.isSame w then return true else same v w

/-- Whether two lists have equal items, the first different ones deciding. -/
def sameItems : List HostValue → List HostValue → Action Bool
  | [], [] => return true
  | v :: vs, w :: ws => do if ← sameInside same v w then sameItems vs ws else return false
  | _, _ => return false

/-- Whether each of some entries is one of a dictionary's. -/
def sameEntries (others : List (HostValue × HostValue)) :
    List (HostValue × HostValue) → Action Bool
  | [] => return true
  | (k, v) :: es => do
    match Dict.find? others k with
    | none => return false
    | some w => if ← sameInside same w v then sameEntries others es else return false

/-- Whether two dictionaries have the same entries, and two ordered ones have
them in the same order. -/
def sameMappings (ordered : Bool) (es fs : List (HostValue × HostValue)) : Action Bool := do
  if es.length ≠ fs.length then return false
  else if ← sameEntries same fs es then
    return !ordered || HostValue.sameKeys (es.map (·.1)) (fs.map (·.1))
  else return false

/-- The values of the fields of a record, all of which it must have. -/
def fieldValues (v : HostValue) : List FieldSpec → Except HostFault (List HostValue)
  | [] => .ok []
  | f :: fs =>
    match v.field? f.name with
    | some x => (fieldValues v fs).map (x :: ·)
    | none => .error (.noAttribute v.memberOwner f.name)

end

/-- Whether two values are equal. The fuel bounds how deeply they nest. -/
def equalWithin (cs : Classes) : Nat → HostValue → HostValue → Action Bool
  | _, .wrapper a custom, .wrapper b custom' =>
    if custom' && !custom then sameWrapped b a else sameWrapped a b
  | 0, v, w => return HostValue.sameAtom (v.precision w) v w
  | fuel + 1, v, w => do
    match v.comparableItems? w with
    | some (vs, ws) =>
      if v.tupleItems?.isNone ∧ vs.length ≠ ws.length then return false
      else sameItems (equalWithin cs fuel) vs ws
    | none =>
      match v, w with
      | .mapping k es, .mapping l fs =>
        sameMappings (equalWithin cs fuel) (k = .ordered && l = .ordered) es fs
      | .record c false _, .record d false _ =>
        if c ≠ d then return false
        else
          let vs ← ofHost (fieldValues v (cs.fields c))
          let ws ← ofHost (fieldValues w (cs.fields c))
          sameItems (equalWithin cs fuel) vs ws
      | v, w => return HostValue.sameAtom (v.precision w) v w

/-- Whether two values are equal. -/
def equal (cs : Classes) (v w : HostValue) : Action Bool :=
  equalWithin cs (v.depth + w.depth) v w

/-- Whether a value has items that are compared with a sized number one by
one. -/
def isCompared : HostValue → Bool
  | .range _ _ | .sequence _ _ | .record _ true _ | .bytes .array _ | .bytes .view _ => true
  | _ => false

/-- What comparing two values for equality answers. -/
def equality (cs : Classes) (v w : HostValue) : Action HostValue := do
  if v.isSized || w.isSized then
    match v, w with
    | .none, _ | _, .none | .nil, _ => return .bool false
    | v, w =>
      if isCompared v || isCompared w then individual (.sealed 0 .array)
      else return .boolean true (← equal cs v w)
  else return .bool (← equal cs v w)

-- ================================================================== order

section

variable (same greater : HostValue → HostValue → Action Bool)

/-- The first place where two sequences differ decides; a sequence is greater
than its beginnings. -/
def firstDifference : List HostValue → List HostValue → Action Bool
  | [], _ => return false
  | _ :: _, [] => return true
  | v :: vs, w :: ws => do
    if ← sameInside same v w then firstDifference vs ws else greater v w

end

/-- Whether a sequence's class is a special case of another one's. -/
def isSpecialCase : HostValue → HostValue → Bool
  | .sequence .customList _, .sequence .list _ | .sequence .callableList _, .sequence .list _
  | .sequence .customTuple _, .sequence .tuple _ | .record _ true _, .sequence .tuple _ => true
  | _, _ => false

/-- The fault of two values of which one was to be greater; `turned` when the
comparison was made from the other side, as a lesser one. -/
def notOrdered (turned : Bool) (v w : HostValue) : Failure :=
  .host (if turned then .notOrdered "<" w.faultName v.faultName
    else .notOrdered ">" v.faultName w.faultName)

/-- Whether a value is greater than another one. Numbers of all classes are
one family, texts and byte strings two more; lists, tuples and queues are
ordered item by item within their family. Everything else is not ordered. A
sequence whose class is a special case of the other one's makes the
comparison. The fuel bounds how deeply sequences nest. -/
def greaterWithin (cs : Classes) : Nat → Bool → HostValue → HostValue → Action Bool
  | fuel, turned, v, w =>
    let p := v.precision w
    match v.quantity?, w.quantity? with
    | some q, some r => return (r.rounded p).less (q.rounded p)
    | _, _ =>
      match v, w with
      | .text _ s, .text _ t => return decide (t < s)
      | .bytes .view _, _ | _, .bytes .view _ => fail (notOrdered turned v w)
      | .bytes _ a, .bytes _ b => return decide (b < a)
      | .sealed _ .set, .sealed _ .set => return false
      | v, w =>
        match fuel, v.comparableItems? w with
        | fuel + 1, some (vs, ws) =>
          let turned := if turned then !isSpecialCase v w else isSpecialCase w v
          firstDifference (equalWithin cs fuel) (greaterWithin cs fuel turned) vs ws
        | _, _ => fail (notOrdered turned v w)

/-- The greatest of some values and one more, the first one of several. -/
def greatestFrom (cs : Classes) (best : HostValue) : List HostValue → Action HostValue
  | [] => return best
  | v :: vs => do
    if ← greaterWithin cs (v.depth + best.depth) false v best then greatestFrom cs v vs
    else greatestFrom cs best vs

/-- The greatest of some values. -/
def greatest (cs : Classes) : List HostValue → Action HostValue
  | [] => fail (.host .emptyMaximum)
  | v :: vs => greatestFrom cs v vs

end Bridge

end StackBridge

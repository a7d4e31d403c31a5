import StackBridge.Machine.Basic

/-!
Slots and indices. A positive index counts from the base of the running
frame, a negative one from the top of the stack, and `registryIndex` stands
for the registry table. A positive index above the top is acceptable: there
is no value, but looking is allowed.
-/

namespace StackBridge

/-- The index that stands for the registry. -/
def registryIndex : Int := -1001000

/-- How many slots a stack is meant to hold. -/
def maxStack : Int := 1000000

namespace Vm

-- ================================================================ indices

/-- The position of an existing slot. -/
def slot (index : Int) : Action Nat := do
  if 0 < index then
    let position := (← base) + (index - 1).toNat
    if position < (← getMachine).slots.length then return position
    else fail (.invalidIndex index)
  else if registryIndex < index ∧ index < 0 then
    let position := ((← getMachine).slots.length : Int) + index
    if position < ((← base : Nat) : Int) then fail (.invalidIndex index)
    else return position.toNat
  else fail (.invalidIndex index)

/-- The value at an index; none at an acceptable index above the top. -/
def valueAt? (index : Int) : Action (Option Value) := do
  if index = registryIndex then return some (.table (← getMachine).registry)
  else if 0 < index then
    let position := (← base) + (index - 1).toNat
    return (← getMachine).slots[position]?
  else
    let position ← slot index
    return (← getMachine).slots[position]?

/-- The category of what is at an index. -/
def categoryAt (index : Int) : Action Category := do
  match ← valueAt? index with
  | none => return .absent
  | some v => categoryOf v

/-- The table at an index. -/
def tableAt (index : Int) : Action TableId := do
  match ← valueAt? index with
  | some (.table id) => return id
  | some v => do fail (.tableExpected index (← categoryOf v))
  | none => fail (.tableExpected index .absent)

/-- The index of the same slot that does not depend on the top. -/
def absIndex (index : Int) : Action Int := do
  if 0 < index ∨ index ≤ registryIndex then return index
  else
    let base ← base
    return ((← getMachine).slots.length : Int) - (base : Int) + index + 1

-- ==================================================================== top

/-- How many slots the running frame has. -/
def getTop : Action Int := do
  let base ← base
  return ((← getMachine).slots.length : Int) - (base : Int)

/-- Makes an index the top: slots above it go, missing ones are nil. -/
def setTop (index : Int) : Action Unit := do
  let base ← base
  let slots := (← getMachine).slots
  let target : Int :=
    if 0 ≤ index then (base : Int) + index else (slots.length : Int) + index + 1
  if target < (base : Int) then fail (.invalidTop index)
  else
    let n := target.toNat
    modifyMachine fun m =>
      { m with slots := m.slots.take n ++ List.replicate (n - m.slots.length) .nil }

/-- Drops values from the top. -/
def pop (count : Int) : Action Unit := do
  let depth ← getTop
  if depth < count then fail (.cannotPop count depth) else setTop (-count - 1)

/-- Removes and answers the top of the running frame. -/
def take : Action Value := do
  let base ← base
  let slots := (← getMachine).slots
  if slots.length ≤ base then fail .notEnough
  else
    match slots.getLast? with
    | none => fail .notEnough
    | some v =>
      modifyMachine fun m => { m with slots := m.slots.dropLast }
      return v

/-- Whether a count of further slots stays within the limit. -/
def checkStack (count : Int) : Action Bool := do
  return decide (((← getMachine).slots.length : Int) + count ≤ maxStack)

-- ================================================================ pushing

/-- Pushes a copy of the value at an index. -/
def pushCopy (index : Int) : Action Unit := do
  match ← valueAt? index with
  | none => fail (.invalidIndex index)
  | some v => push v

/-- Pushes the 64-bit integer of the same residue. -/
def pushInteger (n : Int) : Action Unit := push (.int (wrapInteger n))

/-- Pushes a new function. -/
def pushFunction (f : FunctionObject) : Action Unit := do
  let (id, heap) := (← getHeap).newFunction f
  modify fun vm => { vm with heap }
  push (.function id)

/-- Pushes new userdata. -/
def pushUserdata (payload : HostValue) : Action Unit := do
  let (id, heap) := (← getHeap).newUserdata payload
  modify fun vm => { vm with heap }
  push (.userdata id)

/-- Takes a host value in as a guest. -/
def newGuestValue (g : Guest) (role : Role) : Action Value := do
  let (id, heap) := (← getHeap).newGuest g
  modify fun vm => { vm with heap }
  return .guest id role

/-- Pushes a new table. -/
def pushTable : Action Unit := do
  let (id, heap) := (← getHeap).newTable .empty
  modify fun vm => { vm with heap }
  push (.table id)

-- ================================================================= access

/-- Whether the slot reads as a number: number slots do, and strings that
denote one. -/
def isNumber (index : Int) : Action Bool := do
  match (← valueAt? index).map Value.plain with
  | some (.str b) => return (Numeral.ofBytes? b).isSome
  | some v => return (← categoryOf v) = .number
  | none => return false

/-- Whether the slot is a number of the integer subtype. -/
def isInteger (index : Int) : Action Bool := do
  match (← valueAt? index).map Value.plain with
  | some (.int _) => return true
  | _ => return false

/-- Whether the slot is a string or converts to one. -/
def isString (index : Int) : Action Bool := do
  let c ← categoryAt index
  return c = .string || c = .number

/-- Everything but nil, false and an empty place counts as true. -/
def toBoolean (index : Int) : Action Bool := do
  match ← valueAt? index with
  | none | some .nil | some (.bool false) => return false
  | _ => return true

/-- The number that a value denotes, strings included. -/
def numeralOf? (v : Option Value) : Option Numeral :=
  match v.map Value.plain with
  | some (.int n) => some (.int n)
  | some (.float x) => some (.float x)
  | some (.str b) => Numeral.ofBytes? b
  | _ => none

/-- A number as an integer: floats are truncated toward zero, and a float
outside the 64-bit range reads as zero. -/
def integerOf : Numeral → Int
  | .int n => n
  | .float x =>
    if x.isFinite && inRange x.truncate then x.truncate else 0

/-- The slot as an integer; what is no number reads as zero. -/
def toInteger (index : Int) : Action Int := do
  match numeralOf? (← valueAt? index) with
  | some n => return integerOf n
  | none => return 0

/-- The slot as a float; what is no number reads as zero. -/
def toNumber (index : Int) : Action Double := do
  match numeralOf? (← valueAt? index) with
  | some (.float x) => return x
  | some (.int n) =>
    match Double.ofInt? n with
    | some x => return x
    | none => throw (.host .integerTooLarge)
  | none => return Double.zero

/-- The bytes of a string slot. A number slot becomes a string in place. -/
def toBytes? (index : Int) : Action (Option Bytes) := do
  let inPlace (n : Numeral) : Action (Option Bytes) := do
    let b := n.toBytes
    let position ← slot index
    modifyMachine fun m => { m with slots := m.slots.set position (.str b) }
    return some b
  match (← valueAt? index).map Value.plain with
  | some (.str b) => return some b
  | some (.int n) => inPlace (.int n)
  | some (.float x) => inPlace (.float x)
  | _ => return none

/-- The payload of a userdata slot. -/
def toUserdata (index : Int) : Action HostValue := do
  match ← valueAt? index with
  | some (.userdata id) => return (← getHeap).payload id
  | _ => return .none

/-- The host value in a slot that holds a guest. -/
def guestAt? (index : Int) : Action (Option HostValue) := do
  match ← valueAt? index with
  | some v => return (← getHeap).hostValue? v
  | none => return none

/-- Equality of two values without conversions; both must have a category. -/
def rawEqualValues (v w : Value) : Action Bool := do
  let _ ← categoryOf v
  let _ ← categoryOf w
  return v.rawEqual w

/-- Equality of two slots without conversions; an empty place equals nothing. -/
def rawEqual (i j : Int) : Action Bool := do
  let a ← valueAt? i
  let b ← valueAt? j
  match a, b with
  | some v, some w => rawEqualValues v w
  | _, _ => return false

/-- The border of a table, the length of a string, or zero. -/
def rawLength (index : Int) : Action Nat := do
  match (← valueAt? index).map Value.plain with
  | some (.table id) => return ((← getHeap).table id).length
  | some (.str b) => return b.length
  | _ => return 0

end Vm

end StackBridge

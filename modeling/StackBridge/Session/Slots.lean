import StackBridge.Bridge.Read
import StackBridge.Machine.Fields

/-!
Operations on the slots and tables of one machine, with host values for
arguments and answers.
-/

namespace StackBridge

namespace Session

open Bridge

-- ================================================================= slots

/-- A category as the number that stands for it. -/
def tagValue (c : Category) : HostValue := .int c.code

/-- Whether the category at an index is one of several. -/
def isAmong (k : MachineId) (index : Int) (cs : List Category) : Action HostValue := do
  return .bool (cs.contains (← onMachine k (Vm.categoryAt index)))

/-- The bytes of a string slot, or nothing. -/
def bytesAt (k : MachineId) (index : Int) : Action HostValue := do
  match ← onMachine k (Vm.toBytes? index) with
  | some b => guestOr k index (.bytes .plain b)
  | none => return .none

/-- The slot as an integer, a guest in that role being one itself. -/
def integerAt (k : MachineId) (index : Int) : Action HostValue := do
  let n : HostValue := .int (← onMachine k (Vm.toInteger index))
  if ← onMachine k (Vm.isInteger index) then guestOr k index n else return n

/-- The answer to a question about a slot. -/
def answerQuery (k : MachineId) (index : Int) : SlotQuery → Action HostValue
  | .type => do return tagValue (← onMachine k (Vm.categoryAt index))
  | .isNone => isAmong k index [.absent]
  | .isNil => isAmong k index [.nil]
  | .isNoneOrNil => isAmong k index [.absent, .nil]
  | .isBoolean => isAmong k index [.boolean]
  | .isNumber => do return .bool (← onMachine k (Vm.isNumber index))
  | .isInteger => do return .bool (← onMachine k (Vm.isInteger index))
  | .isString => do return .bool (← onMachine k (Vm.isString index))
  | .isTable => isAmong k index [.table]
  | .isFunction => isAmong k index [.function]
  | .toBoolean => do return .bool (← onMachine k (Vm.toBoolean index))
  | .toInteger => integerAt k index
  | .toNumber => do return .float .plain (← onMachine k (Vm.toNumber index))
  | .toLString | .toString => bytesAt k index
  | .toUserdata => onMachine k (Vm.toUserdata index)
  | .rawLen => do return .int (← onMachine k (Vm.rawLength index))

/-- Pushes a host value as one kind of slot; strings answer their bytes. -/
def pushPlain (k : MachineId) (v : HostValue) : PlainPush → Action HostValue
  | .boolean => do
    push k (.bool v.truth)
    return .none
  | .integer => do
    onMachine k (Vm.pushInteger (← ofHost v.toInteger))
    return .none
  | .number => do
    push k (.float (← individualFloat (← ofHost v.toFloat)))
    return .none
  | .lString => do
    let b ← ofHost v.toBytes
    push k (.str b)
    return .bytes .plain b
  | .string =>
    match v with
    | .none => do
      push k .nil
      return .none
    | v => do
      let b := (← ofHost v.toBytes).beforeZero
      push k (.str b)
      return .bytes .plain b

/-- The name of the category with a number. -/
def nameOfTag (tag : Int) : Except HostFault String :=
  match (Category.ofCode? tag).bind Category.typeName? with
  | some n => .ok n
  | none => .error (.unknownTag tag)

-- ================================================================ tables

/-- The key of a field: a text in UTF-8, or a value's bytes. -/
def fieldKey (name : HostValue) : Except HostFault Value :=
  match name with
  | .text _ s => .ok (.str (utf8 s))
  | v => v.toBytes.map .str

/-- An entry in words. -/
def entryText (h : Heap) (k v : Value) : HostValue := .str (k.word h ++ " = " ++ v.word h)

/-- The entries of a table in words, in the order in which they came. -/
def entryTexts (k : MachineId) (index : Int) : Action HostValue := do
  let id ← onMachine k (Vm.tableAt index)
  let h := (← get).heap
  return .list ((h.table id).entries.map fun (key, v) => entryText h key.value v)

/-- Traverses a table from the key on top to its end, popping each value. -/
def drainFrom (k : MachineId) (index : Int) : Nat → Action (List HostValue)
  | 0 => return []
  | count + 1 => do
    if !(← onMachine k (Vm.next index)) then return []
    let key ← onMachine k (Vm.valueAt? (-2))
    let v ← onMachine k (Vm.valueAt? (-1))
    let text := entryText (← get).heap (key.getD .nil) (v.getD .nil)
    onMachine k (Vm.pop 1)
    let texts ← drainFrom k index count
    return text :: texts

/-- Traverses a table from its first entry. There are at most as many steps
as positions, and one that finds the end. -/
def drain (k : MachineId) (index : Int) : Action HostValue := do
  let index ← onMachine k (Vm.absIndex index)
  push k .nil
  let steps ← onMachine k do
    match ← Vm.valueAt? index with
    | some (.table id) => return ((← Vm.getHeap).table id).order.length + 1
    | _ => return 1
  return .list (← drainFrom k index steps)

-- ============================================================== machines

/-- A machine in words. -/
def describeMachine (k : MachineId) : Action HostValue := do
  let top ← getTop k
  return .str ("<LuaState top=" ++ toString top ++ " frames="
    ++ toString ((← get).machine k).frames.length ++ ">")

/-- Makes a machine the current one; negative numbers count from the last. -/
def use (number : Int) : Action Unit := do
  let count := (← get).machines.size
  let k : Int := if number < 0 then count + number else number
  if k < 0 ∨ (count : Int) ≤ k then fail (.host .noSuchItem)
  else modify fun s => { s with current := k.toNat }

end Session

end StackBridge

import StackBridge.Bridge.Handler
import StackBridge.Bridge.Push

/-!
Reading slots as host values. A read leaves the depth of the stack as it
was. Unless the type is dynamic the slot's category must be the type's; where
it is not, the handler decides.

Reading follows the type into tables, and a type may come back to itself
through a record class, so values are read to a depth only. A mapping's
entries take fuel, a unit each, because a handler may add to them.

A guest is read as what it acts as, and as itself where that needs no
conversion.
-/

namespace StackBridge

namespace Bridge

open Session

/-- A missing type reads as the natural host value. -/
def orNatural (t : TypeExpr) : TypeExpr := if t = .none then .any else t

-- ============================================================ plain shapes

/-- The host value of a slot whose value stays what it is, or else another
one. -/
def guestOr (k : MachineId) (index : Int) (v : HostValue) : Action HostValue := do
  return (← onMachine k (Vm.guestAt? index)).getD v

/-- The natural host value of a slot; what has none is wrapped. -/
def readNatural (k : MachineId) (index : Int) : Action HostValue := do
  let _ ← onMachine k (Vm.categoryAt index)
  match (← onMachine k (Vm.valueAt? index)).map Value.plain with
  | none | some .nil => return .none
  | some (.bool b) => return .bool b
  | some (.int n) => guestOr k index (.int n)
  | some (.float x) => individual (.float .plain x)
  | some (.str b) => return .str (← decodeText b)
  | some _ => return .wrapper (← wrap k index) false

def readDynamic (k : MachineId) (index : Int) (host : HostType) : Action HostValue := do
  match host.origin? with
  | some (.wrapper custom) => return .wrapper (← wrap k index) custom
  | _ => readNatural k index

def readAbsent (host : HostType) : HostValue :=
  if host.origin? = some .nilMarker then .nil else .none

def readBoolean (k : MachineId) (index : Int) (host : HostType) : Action HostValue := do
  let b ← onMachine k (Vm.toBoolean index)
  return .boolean (host.origin? = some (.boolean true)) b

/-- An integer as an instance of the class of a host type; a guest stays what
it is. -/
def asInteger (ctx : Context) (host : HostType) (v : HostValue) : Action HostValue :=
  match host.origin?, v with
  | none, v | some (.integer .plain), v => return v
  | some c, .integer _ n => ofHost (ctx.classes.ofInteger c n)
  | some _, v => return v

/-- An integer slot as it is; a float slot truncated toward zero, whatever
its magnitude, and zero if it is not finite. -/
def readInteger (ctx : Context) (k : MachineId) (index : Int) (host : HostType) :
    Action HostValue := do
  let v : HostValue ←
    if ← onMachine k (Vm.isInteger index) then
      guestOr k index (.int (← onMachine k (Vm.toInteger index)))
    else do
      let x ← onMachine k (Vm.toNumber index)
      pure (.int (if x.isFinite then x.truncate else 0))
  asInteger ctx host v

def readFloat (k : MachineId) (index : Int) (host : HostType) : Action HostValue := do
  let x ← onMachine k (Vm.toNumber index)
  match host.origin? with
  | some c => individual (← ofHost (c.ofFloat x))
  | none => individual (.float .plain x)

/-- The bytes of a string slot. -/
def readBytes (k : MachineId) (index : Int) : Action Bytes := do
  return (← onMachine k (Vm.toBytes? index)).getD []

def readBuffer (k : MachineId) (index : Int) (host : HostType) : Action HostValue := do
  let b ← readBytes k index
  match host.origin? with
  | some (.text kind) => return .text kind (← decodeText b)
  | none | some (.bytes .plain) => guestOr k index (.bytes .plain b)
  | some (.bytes kind) => return .bytes kind b
  | some _ => return .bytes .plain b

def readTextPointer (k : MachineId) (index : Int) : Action HostValue := do
  return .bytes .terminated (← readBytes k index).beforeZero

/-- A function becomes a bound function with the declared signature. -/
def readCallable (k : MachineId) (index : Int) (host : HostType) : Action HostValue := do
  let id ← wrap k index
  match host.args with
  | [.ellipsis, returns] => return .bound id none returns
  | [.params ps, returns] | [.group ps, returns] => return .bound id (some ps) returns
  | _ => return .bound id none .any

-- ======================================================== compound shapes

/-- Pops the value that a read of the top answers. -/
def popping (k : MachineId) (read : Action HostValue) : Action HostValue := do
  let v ← read
  onMachine k (Vm.pop 1)
  return v

/-- Reads the elements from `i` on, `count` of them. -/
def readItems (readAt : Int → TypeExpr → Action HostValue) (k : MachineId) (index : Int)
    (host : HostType) : Nat → Nat → Action (List HostValue)
  | _, 0 => return []
  | i, count + 1 => do
    let _ ← onMachine k (Vm.getKey index (.int ((i : Int) + 1)))
    let v ← popping k (readAt (-1) (orNatural (host.elementType i)))
    let vs ← readItems readAt k index host (i + 1) count
    return v :: vs

/-- Items as a sequence of the class of a host type. Deques and abstract
sequences are read as lists. -/
def asSequence (host : HostType) (items : List HostValue) : HostValue :=
  match host.origin? with
  | some (.sequence .deque) => .list items
  | some (.sequence kind) => .sequence kind items
  | _ => .list items

/-- A sequence from the elements up to the border; a tuple whose elements
have types of their own has as many as there are types. -/
def readSequence (readAt : Int → TypeExpr → Action HostValue) (k : MachineId) (index : Int)
    (host : HostType) : Action HostValue := do
  let index ← onMachine k (Vm.absIndex index)
  let count ←
    if host.isFixedTuple then pure host.args.length else onMachine k (Vm.rawLength index)
  return asSequence host (← restoringTop k (readItems readAt k index host 0 count))

/-- Reads the entries after the key on top, value before key. -/
def readEntries (readAt : Int → TypeExpr → Action HostValue) (k : MachineId) (index : Int)
    (keyType valueType : TypeExpr) :
    Nat → List (HostValue × HostValue) → Action (List (HostValue × HostValue))
  | 0, _ => throw .exhausted
  | fuel + 1, entries => do
    if !(← onMachine k (Vm.next index)) then return entries
    let value ← readAt (-1) valueType
    let key ← readAt (-2) keyType
    onMachine k (Vm.pop 1)
    readEntries readAt k index keyType valueType fuel (← ofHost (Dict.insert entries key value))

/-- A mapping of all entries, in the order of traversal. -/
def readMapping (readAt : Int → TypeExpr → Action HostValue) (fuel : Nat) (k : MachineId)
    (index : Int) (host : HostType) : Action HostValue := do
  let (keyType, valueType) := host.entryTypes
  let index ← onMachine k (Vm.absIndex index)
  let entries ← restoringTop k do
    push k .nil
    readEntries readAt k index (orNatural keyType) (orNatural valueType) fuel []
  match host.origin? with
  | some (.mapping kind) => return .mapping kind entries
  | _ => return .mapping .plain entries

/-- Reads the fields that a constructor takes; a field that is nil and has a
default is left to it. -/
def readFields (readAt : Int → TypeExpr → Action HostValue) (k : MachineId) (index : Int) :
    List (FieldSpec × TypeExpr) → Action (List (String × HostValue))
  | [] => return []
  | (f, type) :: fs => do
    if !f.init then readFields readAt k index fs
    else
      let c ← onMachine k (Vm.getKey index (.str (utf8 f.name)))
      if c = .nil && f.hasDefault then
        onMachine k (Vm.pop 1)
        readFields readAt k index fs
      else
        let v ← popping k (readAt (-1) (orNatural type))
        let vs ← readFields readAt k index fs
        return (f.name, v) :: vs

/-- An instance of a record class from the fields of a table. -/
def readRecord (ctx : Context) (readAt : Int → TypeExpr → Action HostValue) (k : MachineId)
    (index : Int) (host : HostType) : Action HostValue := do
  let index ← onMachine k (Vm.absIndex index)
  let given ← restoringTop k do
    let fields ← ofHost (hintedFields ctx.classes host.recordName)
    readFields readAt k index fields
  ofHost (ctx.classes.build host.recordName given)

-- ================================================================= values

/-- Reads a slot of the right category by the shape of a host type. -/
def readShape (ctx : Context) (readAt : Int → TypeExpr → Action HostValue) (fuel : Nat)
    (k : MachineId) (index : Int) (host : HostType) : Action HostValue := do
  match host.shape with
  | .dynamic => readDynamic k index host
  | .absent => return readAbsent host
  | .boolean => readBoolean k index host
  | .integer => readInteger ctx k index host
  | .float => readFloat k index host
  | .textPointer => readTextPointer k index
  | .buffer => readBuffer k index host
  | .mapping => readMapping readAt fuel k index host
  | .record => readRecord ctx readAt k index host
  | .sequence => readSequence readAt k index host
  | .callable => readCallable k index host

/-- Reads a slot by a host type, the handler standing in where the category
is another. -/
def readHost (ctx : Context) (run : BlockId → Action Unit)
    (readAt : Int → TypeExpr → Action HostValue) (fuel : Nat) (k : MachineId) (index : Int)
    (host : HostType) (h : Handler) : Action HostValue := do
  if host.shape = .dynamic then readShape ctx readAt fuel k index host
  else
    let actual ← onMachine k (Vm.categoryAt index)
    if actual ≠ host.category then handle ctx run k h actual host.category
    else readShape ctx readAt fuel k index host

/-- Reads the slot at an index as a type, to a depth. -/
def readAs (ctx : Context) (run : BlockId → Action Unit) (fuel : Nat) (k : MachineId)
    (h : Handler) : Nat → Int → TypeExpr → Action HostValue
  | 0, _, _ => fail (.host .tooDeep)
  | depth + 1, index, t => do
    let host ← describe ctx t "read"
    guardedIfChecking k 0 ("read of " ++ host.display) <|
      readHost ctx run (readAs ctx run fuel k h depth) fuel k index host h

/-- How many levels a value may nest to be read. -/
def readLimit : Nat := 245

/-- Reads the slot at an index as a type. -/
def readValue (ctx : Context) (run : BlockId → Action Unit) (fuel : Nat) (k : MachineId)
    (h : Handler) (index : Int) (t : TypeExpr) : Action HostValue :=
  readAs ctx run fuel k h readLimit index t

/-- Reads the top as a type, and pops it once that has succeeded. -/
def popValue (ctx : Context) (run : BlockId → Action Unit) (fuel : Nat) (k : MachineId)
    (h : Handler) (t : TypeExpr) : Action HostValue :=
  popping k (readValue ctx run fuel k h (-1) t)

end Bridge

end StackBridge

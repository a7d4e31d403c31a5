import StackBridge.Bridge.Describe
import StackBridge.Bridge.Guard
import StackBridge.Bridge.Member
import StackBridge.Bridge.Wrapper

/-!
Pushing host values. A value becomes exactly one slot, by the shape of the
type it is pushed as; without a type, by its own class. A failing push leaves
the stack as it was.

The fuel of `pushAs` bounds how deeply values nest.
-/

namespace StackBridge

-- ========================================================= element types

namespace HostType

def isTuple (h : HostType) : Bool :=
  h.origin? = some (.sequence .tuple) || h.origin? = some (.sequence .customTuple)

/-- Whether each element of a tuple has a type of its own. An ellipsis in the
second place makes it a tuple of any length. -/
def isFixedTuple (h : HostType) : Bool :=
  h.isTuple &&
    match h.args with
    | [] => false
    | [_, .ellipsis] => false
    | _ => true

/-- The type of an element; none when the sequence has no arguments. -/
def elementType (h : HostType) (i : Nat) : TypeExpr :=
  if h.isFixedTuple then h.args.getD i .none else h.args.headD .none

/-- The types of keys and values; none unless there are exactly two. -/
def entryTypes (h : HostType) : TypeExpr × TypeExpr :=
  match h.args with
  | [k, v] => (k, v)
  | _ => (.none, .none)

/-- The name of the record class behind a type. -/
def recordName (h : HostType) : String :=
  match h.origin? with
  | some c => c.name
  | none => ""

end HostType

namespace Bridge

open Session

-- ============================================================ plain shapes

/-- An integer within 64 bits is an integer slot, any other the nearest
float. -/
def pushIntegerSlot (k : MachineId) (v : HostValue) : Action Unit := do
  let n ← ofHost v.toInteger
  if inRange n then push k (.int n)
  else
    match Double.ofInt? n with
    | some x => push k (.float x)
    | none => fail (.host .integerTooLarge)

/-- A text is encoded, anything else is a string by its bytes. -/
def pushBuffer (k : MachineId) (v : HostValue) : Action Unit := do
  match v with
  | .text _ s => push k (.str (← encodeText s))
  | v => push k (.str (← ofHost v.toBytes))

/-- A string that ends at its first zero byte; no value is nil. -/
def pushTextPointer (k : MachineId) (v : HostValue) : Action Unit := do
  match v with
  | .none => push k .nil
  | v => push k (.str (← ofHost v.toBytes).beforeZero)

/-- A callable becomes a function that calls it through its signature; every
type in the signature must be supported. A bound function is the function it
was made of. -/
def pushCallable (ctx : Context) (k : MachineId) (v : HostValue) (host : HostType) :
    Action Unit := do
  match v with
  | .bound id _ _ =>
    if ((← get).wrapper id).machine ≠ k then fail (.refusal .foreignFunction)
    else pushWrapped id
  | v =>
    let signature ←
      match Signature.ofCallableArgs host.args with
      | some declared => pure declared
      | none => ofHost (v.signature ctx.classes)
    for p in signature.params do
      let _ ← describe ctx p.type "read"
    let _ ← describe ctx signature.returns "push"
    onMachine k (Vm.pushFunction ⟨some v.callableName, .host v signature⟩)

-- ======================================================= compound shapes

/-- Pushes the items of a sequence and stores them from an index on in the
table below. -/
def pushItems (pushItem : HostValue → TypeExpr → Action Unit) (k : MachineId) (host : HostType) :
    Nat → List HostValue → Action Unit
  | _, [] => return
  | i, v :: vs => do
    pushItem v (host.elementType i)
    onMachine k (Vm.setKey (-2) (.int ((i : Int) + 1)))
    pushItems pushItem k host (i + 1) vs

def pushSequence (pushItem : HostValue → TypeExpr → Action Unit) (k : MachineId) (v : HostValue)
    (host : HostType) : Action Unit := do
  let length ← ofHost v.length
  if host.isFixedTuple && length != host.args.length then
    fail (.refusal (.wrongLength host.args.length host.type.display length))
  onMachine k Vm.pushTable
  pushItems pushItem k host 0 (← ofHost v.items)

/-- Pushes entries and stores them in the table below. -/
def pushEntries (pushItem : HostValue → TypeExpr → Action Unit) (k : MachineId)
    (keyType valueType : TypeExpr) : List (HostValue × HostValue) → Action Unit
  | [] => return
  | (key, value) :: es => do
    pushItem key keyType
    pushItem value valueType
    onMachine k (Vm.rawSet (-3))
    pushEntries pushItem k keyType valueType es

def pushMapping (pushItem : HostValue → TypeExpr → Action Unit) (k : MachineId) (v : HostValue)
    (host : HostType) : Action Unit := do
  let _ ← ofHost v.length
  onMachine k Vm.pushTable
  let (keyType, valueType) := host.entryTypes
  pushEntries pushItem k keyType valueType (← ofHost v.entries)

/-- Pushes members of a value by name and stores them in the table below. -/
def pushFields (ctx : Context) (pushItem : HostValue → TypeExpr → Action Unit) (k : MachineId)
    (v : HostValue) : List (String × TypeExpr) → Action Unit
  | [] => return
  | (name, type) :: fs => do
    pushItem (← memberOf ctx v name) type
    onMachine k (Vm.setKey (-2) (.str (utf8 name)))
    pushFields ctx pushItem k v fs

/-- The fields of a record class with their hints, none where there is no
type. -/
def hintedFields (cs : Classes) (name : String) : Except HostFault (List (FieldSpec × TypeExpr)) :=
  (cs.hints name).map fun hints =>
    (cs.fields name).map fun f => (f, ((hints.find? (·.1 == f.name)).map (·.2)).getD .none)

def pushRecord (ctx : Context) (pushItem : HostValue → TypeExpr → Action Unit) (k : MachineId)
    (v : HostValue) (host : HostType) : Action Unit := do
  let fields ← ofHost (hintedFields ctx.classes host.recordName)
  onMachine k Vm.pushTable
  pushFields ctx pushItem k v (fields.map fun p => (p.1.name, p.2))

/-- A wrapper is the value it holds on to, on its own machine only; anything
else is pushed by its class. -/
def pushDynamic (pushItem : HostValue → TypeExpr → Action Unit) (k : MachineId) (v : HostValue) :
    Action Unit := do
  match v with
  | .wrapper id _ =>
    if ((← get).wrapper id).machine ≠ k then fail (.misuse .foreignWrapper) else pushWrapped id
  | v => pushItem v .none

-- ================================================================= values

/-- Pushes a value by the shape of a host type. -/
def pushShape (ctx : Context) (pushItem : HostValue → TypeExpr → Action Unit) (k : MachineId)
    (v : HostValue) (host : HostType) : Action Unit := do
  match host.shape with
  | .dynamic => pushDynamic pushItem k v
  | .absent => push k .nil
  | .boolean => push k (.bool v.truth)
  | .integer => pushIntegerSlot k v
  | .float => push k (.float (← individualFloat (← ofHost v.toFloat)))
  | .textPointer => pushTextPointer k v
  | .buffer => pushBuffer k v
  | .mapping => pushMapping pushItem k v host
  | .record => pushRecord ctx pushItem k v host
  | .sequence => pushSequence pushItem k v host
  | .callable => pushCallable ctx k v host

/-- Pushes a value as a type, or by its class when there is none. Fuel is how
much deeper values may nest. -/
def pushAs (ctx : Context) (k : MachineId) : Nat → HostValue → TypeExpr → Action Unit
  | 0, _, _ => fail (.host .tooDeep)
  | fuel + 1, v, t => do
    let t := if t = .none then .cls v.hostClass else t
    let host ← describe ctx t "push"
    guardedIfChecking k 1 ("push of " ++ host.display) <|
      restoringTop k (pushShape ctx (pushAs ctx k fuel) k v host)

/-- How many levels a value may nest to be pushed. A member of a value can
lead back to it, so that there need not be an end. -/
def pushLimit : Nat := 490

/-- Pushes a value as a type, or by its class when there is none. -/
def pushValue (ctx : Context) (k : MachineId) (v : HostValue) (t : TypeExpr) : Action Unit :=
  pushAs ctx k pushLimit v t

end Bridge

end StackBridge
